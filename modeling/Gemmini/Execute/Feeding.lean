import Gemmini.Execute.Firing

/-!
# From the control queue into the array

The rows of the three operands enter the array in the order in which they were fired, each once.  An
operand that finds its buffer free may enter it before the entry of its row leaves the control queue.
-/

namespace Gemmini.Execute

open Lockstep

variable {E : Type} {P : Params}

/-! ### Boundaries between steps -/

section Boundary

variable {plans : List Plan} {pl : Plan} {i j : ℕ}

/-- The number of rows of the first `j` steps. -/
def boundary (P : Params) (plans : List Plan) (j : ℕ) : ℕ := rowsOf P (plans.take j)

theorem boundary_succ (h : plans[j]? = some pl) :
    boundary P plans (j + 1) = boundary P plans j + pl.totalRows P := by
  rw [boundary, List.take_add_one, h]
  exact rowsOf_append _ _

theorem boundary_length : boundary P plans plans.length = rowsOf P plans := by
  rw [boundary, List.take_length]

theorem boundary_append (le : j ≤ plans.length) (more : List Plan) :
    boundary P (plans ++ more) j = boundary P plans j := by
  rw [boundary, List.take_append_of_le_length le, boundary]

theorem step_append (step : plans[j]? = some pl) (more : List Plan) :
    (plans ++ more)[j]? = some pl ∧ boundary P (plans ++ more) j = boundary P plans j ∧
      boundary P (plans ++ more) (j + 1) = boundary P plans (j + 1) := by
  have lt := (List.getElem?_eq_some_iff.mp step).1
  exact ⟨by rw [List.getElem?_append_left lt, step], boundary_append lt.le more,
    boundary_append lt more⟩

theorem boundary_mono (le : i ≤ j) : boundary P plans i ≤ boundary P plans j := by
  obtain ⟨k, rfl⟩ := Nat.exists_eq_add_of_le le
  rw [boundary, boundary, List.take_add, rowsOf, rowsOf, List.map_append, List.sum_append]
  exact Nat.le_add_right _ _

theorem serial_unique {i j g : ℕ} (hi : boundary P plans i ≤ g) (hi' : g < boundary P plans (i + 1))
    (hj : boundary P plans j ≤ g) (hj' : g < boundary P plans (j + 1)) : i = j := by
  rcases lt_trichotomy i j with lt | eq | gt
  · have : boundary P plans (i + 1) ≤ boundary P plans j := boundary_mono lt
    omega
  · exact eq
  · have : boundary P plans (j + 1) ≤ boundary P plans i := boundary_mono gt
    omega

end Boundary

/-! ### The entries of the control queue -/

def Entry.any (e : Entry) : Bool := e.fire.a || e.fire.b || e.fire.d

theorem Entry.any_iff {e : Entry} : e.any = true ↔ ∃ l, e.fire.get l = true := by
  rw [Entry.any, Bool.or_eq_true, Bool.or_eq_true, Lane.exists_iff]
  rfl

/-- An entry of a step: its rows are rows of the step, and an operand that fires is not ahead. -/
structure Entry.Ok (P : Params) (plans : List Plan) (e : Entry) : Prop where
  plan : plans[e.serial]? = some e.step.plan
  above : ∀ l, boundary P plans e.serial ≤ e.number.get l
  below : ∀ l, e.fire.get l = true → e.number.get l < boundary P plans (e.serial + 1)
  behind : ∀ l, e.fire.get l = true → ∀ o, e.number.get l ≤ e.number.get o
  first : e.first = true → ∀ l, e.number.get l = boundary P plans e.serial

theorem Entry.Ok.lt {plans : List Plan} {e : Entry} (h : e.Ok P plans) : e.serial < plans.length :=
  (List.getElem?_eq_some_iff.mp h.plan).1

theorem Entry.Ok.append {plans : List Plan} {e : Entry} (h : e.Ok P plans) (more : List Plan) :
    e.Ok P (plans ++ more) := by
  obtain ⟨plan, start, stop⟩ := step_append (P := P) h.plan more
  exact ⟨plan, fun l => start ▸ h.above l, fun l fires => stop ▸ h.below l fires, h.behind,
    fun first l => start ▸ h.first first l⟩

/-- The entries of the queue: `m` steps have been requested and `start` rows taken before them, `m'` and
`finish` after them. -/
def Chain (P : Params) (plans : List Plan) :
    ℕ → (Lane → ℕ) → List Entry → ℕ → (Lane → ℕ) → Prop
  | m, start, [], m', finish => m = m' ∧ start = finish
  | m, start, e :: rest, m', finish =>
    e.Ok P plans ∧ e.number.get = start ∧ m = e.serial + (!e.first).toNat ∧
      Chain P plans (e.serial + (!e.first || e.any).toNat)
        (fun l => start l + (e.fire.get l).toNat) rest m' finish

namespace Chain

variable {plans : List Plan} {m m' : ℕ} {start finish : Lane → ℕ} {q : List Entry} {e : Entry}

section

variable (h : Chain P plans m start q m' finish)

include h

theorem append_plans (more : List Plan) :
    Chain P (plans ++ more) m start q m' finish := by
  induction q generalizing m start with
  | nil => exact h
  | cons e rest ih => exact ⟨h.1.append more, h.2.1, h.2.2.1, ih h.2.2.2⟩

theorem append_entry (ok : e.Ok P plans) (number : e.number.get = finish)
    (serial : m' = e.serial + (!e.first).toNat) :
    Chain P plans m start (q ++ [e]) (e.serial + (!e.first || e.any).toNat)
      fun l => finish l + (e.fire.get l).toNat := by
  induction q generalizing m start with
  | nil =>
    obtain ⟨rfl, rfl⟩ := h
    exact ⟨ok, number, serial, rfl, rfl⟩
  | cons e' rest ih => exact ⟨h.1, h.2.1, h.2.2.1, ih h.2.2.2⟩

theorem ok_of_mem (mem : e ∈ q) : e.Ok P plans := by
  induction q generalizing m start with
  | nil => cases mem
  | cons e' rest ih =>
    rcases List.mem_cons.mp mem with rfl | mem
    · exact h.1
    · exact ih h.2.2.2 mem

theorem le_length (le : m' ≤ plans.length) : m ≤ plans.length := by
  cases q with
  | nil => exact h.1 ▸ le
  | cons e rest =>
    have lt := h.1.lt
    have := Bool.toNat_le (!e.first)
    rw [h.2.2.1]
    omega

end

end Chain

/-! ### What has entered the array -/

def State.held (s : State E) (l : Lane) : ℕ := s.entered.length + (s.buf.get l).isSome.toNat

def State.begun (s : State E) : ℕ :=
  if s.control = .compute ∧ ∀ l, (s.fire.get l).started = false then s.steps.length - 1
  else s.steps.length

structure Serves (P : Params) (pl : Plan) (r : Mesh.Req Tag) : Prop where
  dataflow : r.control.dataflow = currentDataflow P.dataflow pl.config.toRegs
  shift : r.control.shift = pl.config.inShift
  aTranspose : r.aTranspose = pl.config.aTranspose
  bdTranspose : r.bdTranspose = pl.config.bdTranspose
  totalRows : r.totalRows = pl.totalRows P

structure Fed.Ok (P : Params) (plans : List Plan) (x : Fed E) : Prop where
  plan : plans[x.serial]? = some x.step.plan
  above : boundary P plans x.serial ≤ x.number
  below : x.number < boundary P plans (x.serial + 1)

/-- The rows with number `k` entered together, under the request of their step. -/
structure Entered.Ok (P : Params) (plans : List Plan) (k : ℕ) (x : Entered E) : Prop where
  serves : ∃ j pl, plans[j]? = some pl ∧ Serves P pl x.req ∧ boundary P plans j ≤ k ∧
    k < boundary P plans (j + 1)
  rows : ∀ l, ∃ f, x.rows.get l = some f ∧ f.number = k ∧ f.Ok P plans

/-- After `m` requests all rows requested have entered, or those of the last one are entering, or the
array is flushed. -/
structure Pending (P : Params) (s : State E) (plans : List Plan) (m : ℕ) : Prop where
  idle : s.reqValid = false → s.entered.length = boundary P plans m ∧ s.fireCounter = 0
  pending : s.reqValid = true → s.req.flush = 0 → ∃ j pl, m = j + 1 ∧ plans[j]? = some pl ∧
    Serves P pl s.req ∧ s.fireCounter < pl.totalRows P ∧
    s.entered.length = boundary P plans j + s.fireCounter
  flushing : s.reqValid = true → 0 < s.req.flush → s.req.flush = 1 ∧ s.control = .flushing ∧
    s.cntl = [] ∧ (∀ l, s.buf.get l = none) ∧ s.entered.length = boundary P plans m ∧
    s.req.totalRows = P.array.dim ∧ s.fireCounter < P.array.dim

/-- The rows on their way into the array, after `m` requests and `start` rows that have left the control
queue. -/
structure Feeding (P : Params) (s : State E) (m : ℕ) (start : Lane → ℕ) : Prop extends
    Pending P s s.steps m where
  totals : ∀ pl ∈ s.steps, IsTotal P (pl.totalRows P)
  chain : Chain P s.steps m start s.cntl s.begun s.fired.get
  held : ∀ l, s.held l = start l ∨
    ∃ e ∈ s.cntl.head?, e.fire.get l = true ∧ s.held l = start l + 1
  late : ∀ e ∈ s.cntl.head?, e.first = false → e.any = true →
    ∃ l, e.fire.get l = true ∧ s.held l = start l
  buf : ∀ l, ∀ x ∈ s.buf.get l, x.number = s.entered.length ∧ x.Ok P s.steps
  log : ∀ k x, s.entered[k]? = some x → Entered.Ok P s.steps k x

variable {s : State E} {inp : Input E}

theorem begun_le (s : State E) : s.begun ≤ s.steps.length := by
  rw [State.begun]
  split_ifs <;> omega

theorem held_eq_iff {l : Lane} : s.held l = s.entered.length ↔ s.buf.get l = none := by
  rw [State.held, ← Option.not_isSome_iff_eq_none]
  cases (s.buf.get l).isSome <;> simp

theorem held_eq_succ_iff {l : Lane} :
    s.held l = s.entered.length + 1 ↔ (s.buf.get l).isSome = true := by
  rw [State.held]
  cases (s.buf.get l).isSome <;> simp

theorem held_cases (s : State E) (l : Lane) : s.held l = s.entered.length ∧ s.buf.get l = none ∨
    s.held l = s.entered.length + 1 ∧ (s.buf.get l).isSome = true := by
  cases h : s.buf.get l with
  | none => exact .inl ⟨held_eq_iff.mpr h, rfl⟩
  | some x => exact .inr ⟨held_eq_succ_iff.mpr (by rw [h]; rfl), rfl⟩

theorem reqValid_of_next (next : s.inputNextRow = true) : s.reqValid = true := by
  rw [State.inputNextRow, Bool.and_eq_true] at next
  exact next.1

theorem inputNextRow_iff (flush : s.req.flush = 0) :
    s.inputNextRow = true ↔ s.reqValid = true ∧ ∀ l, s.held l = s.entered.length + 1 := by
  rw [State.inputNextRow, flush, Bool.and_eq_true]
  refine and_congr_right fun _ => ?_
  simp only [held_eq_succ_iff, Nat.lt_irrefl, decide_false, Bool.or_false, Bool.and_eq_true,
    gt_iff_lt]
  rw [Lane.forall_iff]
  rfl

namespace Feeding

variable {m : ℕ} {start : Lane → ℕ} (h : Feeding P s m start)

include h

theorem le_length : m ≤ s.steps.length := h.chain.le_length (begun_le s)

theorem entered_le : s.entered.length ≤ boundary P s.steps m := by
  cases valid : s.reqValid with
  | false => exact (h.idle valid).1.le
  | true =>
    rcases Nat.eq_zero_or_pos s.req.flush with none' | flush
    · obtain ⟨j, pl, rfl, step, -, lt, entered⟩ := h.pending valid none'
      rw [boundary_succ step, entered]
      omega
    · exact (h.flushing valid flush).2.2.2.2.1.le

theorem valid_of_lt (lt : s.entered.length < boundary P s.steps m) :
    s.reqValid = true ∧ s.req.flush = 0 := by
  cases valid : s.reqValid with
  | false => exact absurd (h.idle valid).1 lt.ne
  | true =>
    rcases Nat.eq_zero_or_pos s.req.flush with none' | flush
    · exact ⟨rfl, none'⟩
    · exact absurd (h.flushing valid flush).2.2.2.2.1 lt.ne

theorem lastFire_iff (valid : s.reqValid = true) (flush : s.req.flush = 0) :
    s.lastFire P = true ↔ s.inputNextRow = true ∧ s.entered.length + 1 = boundary P s.steps m := by
  obtain ⟨j, pl, rfl, step, serves, lt, entered⟩ := h.pending valid flush
  have total := h.totals pl (List.mem_of_getElem? step)
  have lastRow : s.lastRow P = pl.totalRows P - 1 := by
    rw [← total.lastOf_eq, ← serves.totalRows]
    rfl
  rw [State.lastFire, Bool.and_eq_true, beq_iff_eq, lastRow, boundary_succ step, entered, and_comm]
  refine and_congr_right fun _ => ?_
  omega

theorem held_of_nil (queue : s.cntl = []) (l : Lane) : s.held l = start l := by
  apply (h.held l).resolve_right
  rintro ⟨e, no, _⟩
  rw [queue] at no
  cases no

section Head

variable {e : Entry} {rest : List Entry} {l : Lane} (queue : s.cntl = e :: rest)

include queue

theorem head : e.Ok P s.steps ∧ e.number.get = start ∧ m = e.serial + (!e.first).toNat ∧
    Chain P s.steps (e.serial + (!e.first || e.any).toNat)
      (fun l => start l + (e.fire.get l).toNat) rest s.begun s.fired.get := by
  have chain := h.chain
  rw [queue] at chain
  exact chain

theorem flush_of_head (valid : s.reqValid = true) : s.req.flush = 0 := by
  by_contra flush
  have empty := (h.flushing valid (Nat.pos_of_ne_zero flush)).2.2.1
  rw [queue] at empty
  cases empty

theorem all_held (next : s.inputNextRow = true) (l : Lane) : s.held l = s.entered.length + 1 :=
  ((inputNextRow_iff (h.flush_of_head queue (reqValid_of_next next))).mp next).2 l

theorem held_of_head (l : Lane) :
    s.held l = start l ∨ e.fire.get l = true ∧ s.held l = start l + 1 := by
  rcases h.held l with now | ⟨e', head, early⟩
  · exact .inl now
  · rw [queue, List.head?_cons, Option.mem_some_iff] at head
    exact .inr (head ▸ early)

variable (fires : e.fire.get l = true)
include fires

/-- An operand that fires is at a row of which the steps requested are either just short, or which
they cover. -/
theorem start_le :
    start l ≤ boundary P s.steps m ∧ (e.first = false → start l < boundary P s.steps m) ∧
      (e.first = true → start l = boundary P s.steps m) := by
  obtain ⟨ok, number, steps, -⟩ := h.head queue
  have below := ok.below l fires
  rw [number] at below
  cases first : e.first with
  | false =>
    rw [first] at steps
    rw [steps]
    exact ⟨below.le, fun _ => below, fun no => Bool.noConfusion no⟩
  | true =>
    have eq := ok.first first l
    rw [number] at eq
    rw [first] at steps
    rw [steps]
    exact ⟨eq.le, fun no => Bool.noConfusion no, fun _ => eq⟩

theorem start_le_start (o : Lane) : start l ≤ start o := by
  obtain ⟨ok, number, -⟩ := h.head queue
  have := ok.behind l fires o
  rwa [number] at this

/-- The row that an operand is at, if it has not entered its buffer: the buffer can take it. -/
theorem room_of_now (now : s.held l = start l) :
    (s.buf.get l = none ∨ s.inputNextRow = true) ∧
      start l = s.entered.length + s.inputNextRow.toNat := by
  rcases held_cases s l with ⟨free, empty⟩ | ⟨taken, -⟩
  · have wait : s.inputNextRow = false := by
      refine Bool.eq_false_iff.mpr fun next => ?_
      have := h.all_held queue next l
      omega
    rw [wait, ← now, free]
    exact ⟨.inl empty, rfl⟩
  · -- the row before is in the buffers of all operands
    have lt : s.entered.length < boundary P s.steps m := by
      have := (h.start_le queue fires).1
      omega
    obtain ⟨valid, flush⟩ := h.valid_of_lt lt
    have next : s.inputNextRow = true := by
      refine (inputNextRow_iff flush).mpr ⟨valid, fun o => ?_⟩
      have ahead := h.start_le_start queue fires o
      have here := h.held_of_head queue o
      rcases held_cases s o with ⟨free, -⟩ | ⟨taken', -⟩
      · omega
      · exact taken'
    rw [next]
    exact ⟨.inr rfl, by rw [← now, taken]; rfl⟩

theorem laneReady_of_now (now : s.held l = start l) :
    s.laneReady P inp l = true := by
  rw [State.laneReady]
  rcases (h.room_of_now queue fires now).1 with empty | next
  · rw [empty]
    rfl
  · rw [next, Bool.or_true, Bool.true_or]

theorem early (before : s.held l = start l + 1) :
    s.entered.length = start l ∧ s.inputNextRow = false := by
  have le := h.entered_le
  have here := held_cases s l
  cases first : e.first with
  | false =>
    -- an operand of the entry is still missing
    obtain ⟨o, fires', now⟩ := h.late e (by rw [queue]; rfl) first (Entry.any_iff.mpr ⟨l, fires⟩)
    have level := h.start_le_start queue fires' l
    have there := held_cases s o
    have entered : s.entered.length = start l := by omega
    refine ⟨entered, ?_⟩
    refine Bool.eq_false_iff.mpr fun next => ?_
    have := h.all_held queue next o
    omega
  | true =>
    -- the step has not been requested
    have edge := (h.start_le queue fires).2.2 first
    have entered : s.entered.length = start l := by omega
    refine ⟨entered, ?_⟩
    cases valid : s.reqValid with
    | false => rw [State.inputNextRow, valid, Bool.false_and]
    | true =>
      obtain ⟨j, pl, rfl, step, -, lt, at'⟩ := h.pending valid (h.flush_of_head queue valid)
      rw [boundary_succ step] at edge
      omega

theorem start_of_fires :
    start l = s.entered.length + s.inputNextRow.toNat := by
  rcases h.held_of_head queue l with now | ⟨-, before⟩
  · exact (h.room_of_now queue fires now).2
  · obtain ⟨entered, wait⟩ := h.early queue fires before
    rw [entered, wait]
    rfl

omit fires in
theorem not_reqReady (first : e.first = false) (any : e.any = true) : s.reqReady P inp = false := by
  obtain ⟨o, fires, now⟩ := h.late e (by rw [queue]; rfl) first any
  have lt := (h.start_le queue fires).2.1 first
  have there := held_cases s o
  obtain ⟨valid, flush⟩ := h.valid_of_lt (by omega)
  have open' : s.lastFire P = false := by
    refine Bool.eq_false_iff.mpr fun last => ?_
    obtain ⟨next, edge⟩ := (h.lastFire_iff valid flush).mp last
    have := h.all_held queue next o
    omega
  rw [State.reqReady, valid, open']
  rfl

theorem not_laneReady (first : e.first = false) (before : s.held l = start l + 1) : s.laneReady P inp l = false := by
  obtain ⟨entered, wait⟩ := h.early queue fires before
  have full : (s.buf.get l).isSome = true := held_eq_succ_iff.mp (by omega)
  have closed : s.reqReady P inp = false := h.not_reqReady queue first (Entry.any_iff.mpr ⟨l, fires⟩)
  rw [State.laneReady, wait, closed, Bool.or_false, Bool.or_false, Option.isNone_eq_false_iff]
  exact full

end Head

end Feeding

/-! ### The entry of a cycle -/

section Enqueue

variable {st : Step} {earlier : List Plan} {n : Lane → ℕ}

theorem Stepping.started_iff (h : Stepping P s st earlier n) (l : Lane) :
    (s.fire.get l).started = true ↔ 0 < n l := by
  rw [h.progress.fire l, Counter.after_started, decide_eq_true_iff]

theorem Stepping.begun_eq (h : Stepping P s st earlier n) :
    s.begun = earlier.length + (decide (∃ l, 0 < n l)).toNat := by
  rw [State.begun]
  rcases h.steps with ⟨control, steps⟩ | ⟨control, steps⟩
  · have none' : ¬∃ l, 0 < n l := by
      rintro ⟨l, pos⟩
      exact absurd (h.fresh control l) pos.ne'
    rw [if_neg (by rw [control]; exact fun no => Control.noConfusion no.1), steps,
      decide_eq_false none']
    rfl
  · have started : (∀ l, (s.fire.get l).started = false) ↔ ¬∃ l, 0 < n l := by
      simp only [← h.started_iff, not_exists, Bool.not_eq_true]
    rw [steps, List.length_append, List.length_singleton]
    simp only [control, true_and, started]
    by_cases any : ∃ l, 0 < n l
    · rw [if_neg (not_not.mpr any), decide_eq_true any]
      rfl
    · rw [if_pos any, decide_eq_false any]
      rfl

theorem Stepping.entry_ok (h : Stepping P s st earlier n) (inp : Input E) :
    (s.entry P inp st).Ok P (earlier ++ [st.plan]) ∧ (s.entry P inp st).serial = earlier.length ∧
      (s.entry P inp st).first = !decide (∃ l, 0 < n l) ∧
      (s.entry P inp st).number = s.fired ∧
      ∀ l, (s.entry P inp st).fire.get l = s.fires P inp st l := by
  have serial : (s.entry P inp st).serial = earlier.length := h.serial
  have first : (s.entry P inp st).first = !decide (∃ l, 0 < n l) := by
    show (!(s.fire.get .a).started && !(s.fire.get .b).started && !(s.fire.get .d).started) = _
    rw [Bool.eq_iff_iff]
    simp only [Bool.and_eq_true, Bool.not_eq_true', ← Bool.not_eq_true, h.started_iff,
      decide_eq_true_eq, not_exists]
    rw [Lane.forall_iff]
  have fire (l : Lane) : (s.entry P inp st).fire.get l = s.fires P inp st l := Lanes.get_of _ l
  refine ⟨?_, serial, first, rfl, fire⟩
  have valid {l : Lane} (fires : (s.entry P inp st).fire.get l = true) : s.valid P st l = true := by
    rw [fire, State.fires, Bool.and_eq_true] at fires
    exact fires.1
  have start : boundary P (earlier ++ [st.plan]) earlier.length = rowsOf P earlier := by
    rw [boundary_append le_rfl, boundary_length]
  have plan : (earlier ++ [st.plan])[earlier.length]? = some st.plan := List.getElem?_concat_length
  constructor
  · rw [serial, plan]
    rfl
  · intro l
    rw [serial, start]
    exact (h.fired l).symm ▸ Nat.le_add_right _ _
  · intro l fires
    have lt := h.progress.lt_of_valid (valid fires)
    rw [serial, boundary_succ plan, start]
    show s.fired.get l < _
    rw [h.fired l]
    exact Nat.add_lt_add_left lt _
  · intro l fires o
    show s.fired.get l ≤ s.fired.get o
    rw [h.fired l, h.fired o]
    exact Nat.add_le_add_left (h.progress.le_of_valid (valid fires) o) _
  · intro fresh l
    rw [first, Bool.not_eq_true', decide_eq_false_iff_not, not_exists] at fresh
    rw [serial, start]
    show s.fired.get l = _
    rw [h.fired l, Nat.eq_zero_of_not_pos (fresh l), Nat.add_zero]

variable [Zero E]

theorem Stepping.begun_next (h : Stepping P s st earlier n) (wf : WellFormed P s)
    (stride : s.config.aAddrStride < 2 ^ 16) :
    (s.next P inp).begun =
      earlier.length + (decide (∃ l, 0 < n l + (Progress.moves P s inp st l).toNat)).toNat := by
  cases last : s.aboutToFireAllRows P inp st with
  | false =>
    obtain ⟨st', -, step⟩ := h.step wf stride last
    exact step.begun_eq
  | true =>
    have all := h.progress.finished_iff.mp last
    have four := h.progress.isTotal.four
    have some' : ∃ l, 0 < n l + (Progress.moves P s inp st l).toNat := ⟨.a, by rw [all .a]; omega⟩
    rw [State.begun, h.ends last, if_neg (fun no => Control.noConfusion no.1), h.steps_next,
      List.length_append, decide_eq_true some']
    rfl

theorem Rows.steps_next (rows : Rows P s) (four : 4 ≤ P.array.dim) (wf : WellFormed P s)
    (inp : Input E) : ∃ more, (s.next P inp).steps = s.steps ++ more ∧
      ∀ pl ∈ more, IsTotal P (pl.totalRows P) := by
  cases current : s.current P with
  | none => exact ⟨[], by rw [(next_of_no_current current inp).2.2.2, List.append_nil], by simp⟩
  | some st =>
    obtain ⟨earlier, n, stepping⟩ := rows.stepping four wf current
    rw [stepping.steps_next]
    rcases stepping.steps with ⟨-, eq⟩ | ⟨-, eq⟩
    · refine ⟨[st.plan], by rw [eq], fun pl mem => ?_⟩
      rw [List.mem_singleton.mp mem]
      exact stepping.progress.isTotal
    · exact ⟨[], by rw [eq, List.append_nil], by simp⟩

theorem Rows.chain_next (rows : Rows P s) (four : 4 ≤ P.array.dim) (wf : WellFormed P s) {m : ℕ}
    {start : Lane → ℕ} {q : List Entry} (chain : Chain P s.steps m start q s.begun s.fired.get) :
    Chain P (s.next P inp).steps m start (q ++ (s.enq P inp).toList) (s.next P inp).begun
      (s.next P inp).fired.get := by
  cases current : s.current P with
  | none =>
    obtain ⟨now, next, fired, steps⟩ := next_of_no_current current inp
    have enq : s.enq P inp = none := by
      rw [State.enq, current]
      split_ifs <;> rfl
    have begun : (s.next P inp).begun = s.begun := by
      rw [State.begun, State.begun, if_neg fun h => next h.1, if_neg fun h => now h.1, steps]
    rw [enq, begun, steps, show (s.next P inp).fired.get = s.fired.get from funext fired]
    simpa using chain
  | some st =>
    obtain ⟨earlier, n, stepping⟩ := rows.stepping four wf current
    obtain ⟨more, steps, -⟩ := rows.steps_next four wf inp
    have longer := steps ▸ chain.append_plans more
    have fired : (s.next P inp).fired.get =
        fun l => s.fired.get l + (Progress.moves P s inp st l).toNat := funext stepping.fired_next
    cases ready : s.cntlReady P inp with
    | false =>
      have still (l : Lane) : Progress.moves P s inp st l = false := by
        rw [Progress.moves, ready, Bool.and_false]
      have enq : s.enq P inp = none := by rw [State.enq, ready, if_neg Bool.false_ne_true]
      have begun : (s.next P inp).begun = s.begun := by
        rw [stepping.begun_next wf rows.stride, stepping.begun_eq]
        simp only [still, Bool.toNat_false, Nat.add_zero]
      rw [enq, begun, fired]
      simp only [still, Bool.toNat_false, Nat.add_zero]
      simpa using longer
    | true =>
      obtain ⟨ok, serial, first, number, fire⟩ := stepping.entry_ok inp
      have enq : s.enq P inp = some (s.entry P inp st) := by
        rw [State.enq, ready, current, if_pos rfl, Option.map_some]
      generalize s.entry P inp st = e at *
      have moves (l : Lane) : Progress.moves P s inp st l = e.fire.get l := by
        rw [Progress.moves, ready, Bool.and_true, fire]
      rw [← stepping.steps_next] at ok
      have before : s.begun = e.serial + (!e.first).toNat := by
        rw [stepping.begun_eq, serial, first, Bool.not_not]
      have after : (s.next P inp).begun = e.serial + (!e.first || e.any).toNat := by
        rw [stepping.begun_next wf rows.stride, serial, first, Bool.not_not]
        simp only [moves]
        congr 2
        rw [Bool.eq_iff_iff, Bool.or_eq_true, Entry.any_iff, decide_eq_true_iff, decide_eq_true_iff,
          ← exists_or]
        refine exists_congr fun l => ?_
        cases e.fire.get l <;> simp
      have finish : (s.next P inp).fired.get = fun l => s.fired.get l + (e.fire.get l).toNat := by
        rw [fired]
        simp only [moves]
      rw [enq, after, finish]
      exact longer.append_entry ok (congrArg Lanes.get number) before

end Enqueue

/-! ### The buffers after a cycle -/

section Buffers

variable [Zero E]

theorem entered_next_length : (s.next P inp).entered.length =
    s.entered.length + (s.inputNextRow && decide (s.req.flush = 0)).toNat := by
  show (if _ then _ else _ : List _).length = _
  cases s.inputNextRow && decide (s.req.flush = 0) with
  | false => rw [if_neg Bool.false_ne_true]; rfl
  | true => rw [if_pos rfl, List.length_append]; rfl

theorem buf_next (l : Lane) : (s.next P inp).buf.get l = match s.arrives P inp l with
    | some x => some x
    | none => if s.inputNextRow then none else s.buf.get l :=
  Lanes.get_of _ l

namespace Feeding

variable {m : ℕ} {start : Lane → ℕ} {l : Lane} {e : Entry} {rest : List Entry}

theorem arrives_of_nil (queue : s.cntl = []) : s.arrives P inp l = none := by
  rw [State.arrives, queue]

variable (h : Feeding P s m start)

include h

theorem held_next_of_none (none' : s.arrives P inp l = none) :
    (s.next P inp).held l = s.held l := by
  rw [State.held, buf_next, none', entered_next_length]
  cases next : s.inputNextRow with
  | false => rfl
  | true =>
    rw [if_pos rfl, Bool.true_and]
    rcases Nat.eq_zero_or_pos s.req.flush with flush | flush
    · rw [((inputNextRow_iff flush).mp next).2 l, decide_eq_true flush]
      rfl
    · obtain ⟨-, -, -, empty, -⟩ := h.flushing (reqValid_of_next next) flush
      rw [held_eq_iff.mpr (empty l), decide_eq_false flush.ne']
      rfl

variable (queue : s.cntl = e :: rest)

include queue

theorem of_arrives {x : Fed E} (arrives : s.arrives P inp l = some x) :
    e.fire.get l = true ∧ x = s.presented P inp e l ∧ (s.next P inp).held l = start l + 1 ∧
      x.number = (s.next P inp).entered.length ∧ x.Ok P s.steps := by
  have here := arrives
  rw [State.arrives, queue] at here
  dsimp only at here
  split_ifs at here with fires
  cases here
  rw [State.meshFire, Bool.and_eq_true, Bool.and_eq_true] at fires
  obtain ⟨ok, number, -⟩ := h.head queue
  have start_eq := h.start_of_fires queue fires.1.1
  have entered : (s.next P inp).entered.length = start l := by
    rw [entered_next_length, start_eq]
    cases next : s.inputNextRow with
    | false => rfl
    | true => rw [decide_eq_true (h.flush_of_head queue (reqValid_of_next next))]; rfl
  have same : (s.presented P inp e l).number = start l := congrFun number l
  refine ⟨fires.1.1, rfl, ?_, same.trans entered.symm, ok.plan, ok.above l, ok.below l fires.1.1⟩
  rw [State.held, buf_next, arrives, entered]
  rfl

theorem held_next (l : Lane) :
    (s.next P inp).held l = start l ∨
      e.fire.get l = true ∧ (s.next P inp).held l = start l + 1 := by
  cases arrives : s.arrives P inp l with
  | none =>
    rw [h.held_next_of_none arrives]
    exact h.held_of_head queue l
  | some x =>
    obtain ⟨fires, -, held, -⟩ := h.of_arrives queue arrives
    exact .inr ⟨fires, held⟩

theorem held_next_of_deq (deq : s.deqReady P inp e = true) (l : Lane) :
    (s.next P inp).held l = start l + (e.fire.get l).toNat := by
  rw [State.deqReady, Bool.and_eq_true, decide_eq_true_iff] at deq
  rcases h.held_next queue l with now | ⟨fires, taken⟩
  · cases fires : e.fire.get l with
    | false => exact now
    | true =>
      exfalso
      have notArrives : s.arrives P inp l = none := by
        cases arrives : s.arrives P inp l with
        | none => rfl
        | some x =>
          have := (h.of_arrives queue arrives).2.2.1
          omega
      rw [h.held_next_of_none notArrives] at now
      have ready : s.laneReady P inp l = true := h.laneReady_of_now queue fires now
      have fire := (deq.1 l fires).resolve_right (by rw [ready]; decide)
      rw [State.arrives, queue] at notArrives
      dsimp only at notArrives
      rw [if_pos fire] at notArrives
      cases notArrives
  · rw [taken, fires]
    rfl

theorem late_of_stay (stay : s.deqReady P inp e = false) (first : e.first = false) :
    ∃ l, e.fire.get l = true ∧ (s.next P inp).held l = start l := by
  by_contra all
  push Not at all
  have entry : s.deqReady P inp e = true := by
    rw [State.deqReady, first, Bool.not_false, Bool.true_or, Bool.and_true, decide_eq_true_iff]
    intro l fires
    have taken : (s.next P inp).held l = start l + 1 :=
      ((h.held_next queue l).resolve_left (all l fires)).2
    cases arrives : s.arrives P inp l with
    | none =>
      rw [h.held_next_of_none arrives] at taken
      exact .inr (h.not_laneReady queue fires first taken)
    | some x =>
      rw [State.arrives, queue] at arrives
      dsimp only at arrives
      split_ifs at arrives with fire
      exact .inl fire
  rw [entry] at stay
  cases stay

end Feeding

end Buffers

/-! ### The request after a cycle -/

section Request

variable {m : ℕ} {start : Lane → ℕ} {e : Entry} {rest : List Entry}

theorem Feeding.reqFire_of_head (h : Feeding P s m start) (queue : s.cntl = e :: rest) :
    s.reqFire P inp =
      if s.deqReady P inp e && e.first && e.any then some (s.requestOf P e) else none := by
  have deq : s.deqFire P inp = s.deqReady P inp e := by rw [State.deqFire, queue]
  rw [State.reqFire, queue, deq]
  dsimp only
  rw [← Entry.any]
  cases any : e.any with
  | false =>
    rw [Bool.and_false, Bool.and_false, if_neg Bool.false_ne_true]
    split_ifs <;> rfl
  | true =>
    cases first : e.first with
    | false =>
      rw [h.not_reqReady queue first any, if_neg Bool.false_ne_true, Bool.and_false, Bool.false_and,
        if_neg Bool.false_ne_true]
    | true =>
      rw [Bool.and_true, Bool.and_true]
      cases leaves : s.deqReady P inp e with
      | false =>
        rw [if_neg Bool.false_ne_true]
        split_ifs <;> rfl
      | true =>
        have ready := leaves
        rw [State.deqReady, first, Bool.and_eq_true] at ready
        rw [if_pos (show s.reqReady P inp = true from ready.2), if_pos rfl]

def State.taken (P : Params) (s : State E) (inp : Input E) : Option (Mesh.Req Tag) :=
  (s.reqFire P inp).filter fun r => r.flush = 0

theorem taken_of_nil (queue : s.cntl = []) : s.taken P inp = none := by
  rw [State.taken, State.reqFire, queue]
  dsimp only
  split_ifs <;> rfl

theorem Feeding.taken_of_head (h : Feeding P s m start) (queue : s.cntl = e :: rest) :
    s.taken P inp =
      if s.deqReady P inp e && e.first && e.any then some (s.requestOf P e) else none := by
  rw [State.taken, h.reqFire_of_head queue]
  split_ifs <;> rfl

theorem fireCounter_next (total : IsTotal P s.req.totalRows) (lt : s.fireCounter < s.req.totalRows) :
    s.nextFireCounter P =
      if s.inputNextRow then Counter.wrap s.req.totalRows s.fireCounter else s.fireCounter := by
  have four := total.four
  have le := total.le
  have lastRow : s.lastRow P = s.req.totalRows - 1 := total.lastOf_eq
  rw [State.nextFireCounter, lastRow, if_neg (show ¬s.req.totalRows - 1 = 0 by omega)]
  cases s.inputNextRow with
  | false => rfl
  | true =>
    rw [if_pos rfl, if_pos rfl, Counter.wrap]
    have wide : P.array.dim ≤ 2 ^ log2Up P.array.dim := le_two_pow_log2Up _
    by_cases last : s.fireCounter + 1 < s.req.totalRows
    · rw [if_neg (by omega), if_pos last, Nat.mod_eq_of_lt (by omega)]
    · rw [if_pos (by omega), if_neg last, show s.fireCounter - (s.req.totalRows - 1) = 0 by omega,
        Nat.zero_mod]

variable [Zero E]

theorem Feeding.edge (h : Feeding P s m start) (four : 4 ≤ P.array.dim)
    (done : s.reqValid = false ∨ s.lastFire P = true) (inp : Input E) :
    (s.next P inp).entered.length = boundary P s.steps m ∧ (s.next P inp).fireCounter = 0 := by
  show _ ∧ s.nextFireCounter P = 0
  rw [entered_next_length]
  cases valid : s.reqValid with
  | false =>
    have wait : s.inputNextRow = false := by rw [State.inputNextRow, valid, Bool.false_and]
    rw [wait, State.nextFireCounter, wait, if_neg Bool.false_ne_true]
    exact h.idle valid
  | true =>
    have last := done.resolve_left (by rw [valid]; decide)
    rcases Nat.eq_zero_or_pos s.req.flush with flush | flush
    · obtain ⟨next, edge⟩ := (h.lastFire_iff valid flush).mp last
      obtain ⟨j, pl, rfl, step, serves, lt, entered⟩ := h.pending valid flush
      have total := h.totals pl (List.mem_of_getElem? step)
      rw [← serves.totalRows] at total lt
      rw [boundary_succ step, ← serves.totalRows, entered] at edge
      rw [next, decide_eq_true flush, fireCounter_next total lt, next, if_pos rfl, Counter.wrap,
        if_neg (by omega), boundary_succ step, ← serves.totalRows, entered]
      exact ⟨edge, rfl⟩
    · obtain ⟨-, -, -, -, entered, rows, lt⟩ := h.flushing valid flush
      rw [State.lastFire, Bool.and_eq_true, beq_iff_eq] at last
      have total : IsTotal P s.req.totalRows := rows.symm ▸ ⟨four, le_rfl⟩
      have at' : s.fireCounter = s.req.totalRows - 1 := last.1.trans total.lastOf_eq
      rw [← rows] at lt
      rw [decide_eq_false flush.ne', Bool.and_false, fireCounter_next total lt, last.2, if_pos rfl,
        Counter.wrap, if_neg (by omega)]
      exact ⟨entered, rfl⟩

theorem Feeding.edge_of_fire (h : Feeding P s m start) (four : 4 ≤ P.array.dim) {r : Mesh.Req Tag}
    (fire : s.reqFire P inp = some r) :
    (s.next P inp).entered.length = boundary P s.steps m ∧ (s.next P inp).fireCounter = 0 := by
  have ready : s.reqReady P inp = true := by
    by_contra no
    rw [State.reqFire, if_neg no] at fire
    cases fire
  rw [State.reqReady, Bool.and_eq_true, Bool.or_eq_true, Bool.not_eq_true'] at ready
  exact h.edge four ready.1 inp

theorem cntl_next_cases (mem : e ∈ (s.next P inp).cntl) :
    (e ∈ (if s.deqFire P inp then s.cntl.tail else s.cntl) ∧ e ∈ s.cntl) ∨
      ∃ st, s.current P = some st ∧ s.entry P inp st = e := by
  refine (List.mem_append.mp mem).imp (fun stays => ⟨stays, ?_⟩) fun new => ?_
  · split_ifs at stays
    · exact List.mem_of_mem_tail stays
    · exact stays
  · rw [Option.mem_toList, State.enq] at new
    split_ifs at new
    exact Option.map_eq_some_iff.mp new

theorem cntl_next_of_nil (queue : s.cntl = []) (idle : s.current P = none) :
    (s.next P inp).cntl = [] := by
  show (if s.deqFire P inp then s.cntl.tail else s.cntl) ++ (s.enq P inp).toList = []
  rw [State.enq, idle, queue]
  split_ifs <;> rfl

theorem Feeding.pending_of_none (h : Feeding P s m start) (four : 4 ≤ P.array.dim)
    (none' : s.reqFire P inp = none) : Pending P (s.next P inp) s.steps m := by
  have reqValid := State.reqValid_next_of_none none'
  have req := State.req_next_of_none none'
  have over' (invalid : (s.next P inp).reqValid = false)
      (done : s.reqValid = false ∨ s.lastFire P = true) : Pending P (s.next P inp) s.steps m :=
    ⟨fun _ => h.edge four done inp, fun valid => absurd valid (by rw [invalid]; decide),
      fun valid => absurd valid (by rw [invalid]; decide)⟩
  cases valid : s.reqValid with
  | false =>
    have wait : s.lastFire P = false := by
      rw [State.lastFire, State.inputNextRow, valid, Bool.false_and, Bool.and_false]
    exact over' (by rw [reqValid, wait, if_neg Bool.false_ne_true, valid]) (.inl valid)
  | true =>
    cases last : s.lastFire P with
    | true =>
      have le : ¬s.req.flush > 1 := by
        rcases Nat.eq_zero_or_pos s.req.flush with flush | flush
        · omega
        · have := (h.flushing valid flush).1
          omega
      exact over' (by rw [reqValid, last, if_pos rfl, decide_eq_false le]) (.inr last)
    | false =>
      rw [last, if_neg Bool.false_ne_true] at req reqValid
      rw [valid] at reqValid
      refine ⟨fun no => absurd reqValid (by rw [no]; decide), fun _ flush => ?_, fun _ flush => ?_⟩
      · rw [req] at flush
        obtain ⟨j, pl, rfl, step, serves, lt, entered⟩ := h.pending valid flush
        have total := h.totals pl (List.mem_of_getElem? step)
        have open' := (h.lastFire_iff valid flush).not.mp (by rw [last]; decide)
        have same := fireCounter_next (s := s) (serves.totalRows ▸ total) (serves.totalRows ▸ lt)
        rw [boundary_succ step, entered] at open'
        have counter : (s.next P inp).fireCounter = s.fireCounter + s.inputNextRow.toNat := by
          show s.nextFireCounter P = _
          rw [same, serves.totalRows]
          cases next : s.inputNextRow with
          | false => rfl
          | true =>
            rw [if_pos rfl, Counter.wrap, if_pos]
            · rfl
            · by_contra no
              exact open' ⟨next, by omega⟩
        have below : s.fireCounter + s.inputNextRow.toNat < pl.totalRows P := by
          cases next : s.inputNextRow with
          | false => exact lt
          | true =>
            by_contra no
            simp only [Bool.toNat_true] at no
            exact open' ⟨next, by omega⟩
        refine ⟨j, pl, rfl, step, req ▸ serves, counter ▸ below, ?_⟩
        rw [entered_next_length, entered, counter, decide_eq_true flush, Bool.and_true, Nat.add_assoc]
      · rw [req] at flush ⊢
        obtain ⟨one, control, queue, empty, entered, rows, lt⟩ := h.flushing valid flush
        have next : s.inputNextRow = true := by
          rw [State.inputNextRow, valid, decide_eq_true flush, Bool.or_true]
          rfl
        have total : IsTotal P s.req.totalRows := rows.symm ▸ ⟨four, le_rfl⟩
        have open' : s.fireCounter ≠ s.req.totalRows - 1 := fun at' => by
          rw [State.lastFire, next, Bool.and_true, beq_eq_false_iff_ne] at last
          exact last (at'.trans total.lastOf_eq.symm)
        have closed : s.reqReady P inp = false := by
          rw [State.reqReady, valid, last]
          rfl
        refine ⟨one, ?_, ?_, fun l => ?_, ?_, rows, ?_⟩
        · show s.nextControl P inp = _
          rw [State.nextControl, control]
          dsimp only
          rw [closed, if_neg Bool.false_ne_true]
        · exact cntl_next_of_nil queue (by rw [State.current, State.performing, control]; rfl)
        · rw [buf_next, Feeding.arrives_of_nil queue, next, if_pos rfl]
        · rw [entered_next_length, decide_eq_false flush.ne', Bool.and_false, entered]
          rfl
        · show s.nextFireCounter P < _
          rw [fireCounter_next total (rows ▸ lt), next, if_pos rfl, Counter.wrap]
          rw [rows] at open' ⊢
          split_ifs <;> omega

theorem Feeding.pending_of_entry (h : Feeding P s m start) (four : 4 ≤ P.array.dim)
    (queue : s.cntl = e :: rest) (fire : s.reqFire P inp = some (s.requestOf P e))
    (first : e.first = true) : Pending P (s.next P inp) s.steps (e.serial + 1) := by
  obtain ⟨ok, -, steps, -⟩ := h.head queue
  obtain ⟨entered, counter⟩ := h.edge_of_fire four fire
  have reqValid : (s.next P inp).reqValid = true := State.reqValid_next_of_fire fire
  have req := State.req_next_of_fire fire
  have total := h.totals _ (List.mem_of_getElem? ok.plan)
  have four' := total.four
  refine ⟨fun no => absurd reqValid (by rw [no]; decide), fun _ _ => ?_, fun _ flush => ?_⟩
  · refine ⟨e.serial, e.step.plan, rfl, ok.plan, req ▸ ⟨rfl, rfl, rfl, rfl, rfl⟩, ?_, ?_⟩
    · rw [counter]
      omega
    · rw [entered, counter, steps, first]
      rfl
  · rw [req] at flush
    exact absurd flush (Nat.lt_irrefl 0)

theorem Feeding.pending_of_flush (h : Feeding P s m start) (rows : Rows P s)
    (four : 4 ≤ P.array.dim) (queue : s.cntl = []) (control : s.control = .flush)
    (fire : s.reqFire P inp = some (s.flushRequest P inp)) :
    Pending P (s.next P inp) s.steps m := by
  obtain ⟨entered, counter⟩ := h.edge_of_fire four fire
  have reqValid : (s.next P inp).reqValid = true := State.reqValid_next_of_fire fire
  have req := State.req_next_of_fire fire
  have busy : s.control ≠ .compute := by rw [control]; decide
  -- every row fired is a row requested
  have level (l : Lane) : start l = boundary P s.steps m := by
    have chain := h.chain
    rw [queue] at chain
    obtain ⟨rfl, rfl⟩ := chain
    rw [State.begun, if_neg fun no => busy no.1, boundary_length]
    exact (rows.idle busy).2.2 l
  refine ⟨fun no => absurd reqValid (by rw [no]; decide), fun _ flush => ?_, fun _ _ => ?_⟩
  · rw [req] at flush
    cases flush
  · rw [req]
    refine ⟨rfl, ?_, ?_, fun l => ?_, entered, rfl, ?_⟩
    · show s.nextControl P inp = _
      rw [State.nextControl, control]
      dsimp only
      rw [fire, Option.isSome_some, if_pos rfl]
    · exact cntl_next_of_nil queue (by rw [State.current, State.performing, control]; rfl)
    · have none' : s.arrives P inp l = none := Feeding.arrives_of_nil queue
      exact held_eq_iff.mp (by rw [h.held_next_of_none none', h.held_of_nil queue, level, entered])
    · rw [counter]
      omega

omit [Zero E] in
theorem Pending.append {plans : List Plan} (h : Pending P s plans m) (le : m ≤ plans.length)
    (more : List Plan) : Pending P s (plans ++ more) m where
  idle invalid := boundary_append (P := P) le more ▸ h.idle invalid
  pending valid flush := by
    obtain ⟨j, pl, rfl, step, serves, lt, entered⟩ := h.pending valid flush
    obtain ⟨step', start, -⟩ := step_append (P := P) step more
    exact ⟨j, pl, rfl, step', serves, lt, start ▸ entered⟩
  flushing valid flush := by
    obtain ⟨one, control, queue, empty, entered, rest⟩ := h.flushing valid flush
    exact ⟨one, control, queue, empty, by rw [entered, boundary_append le], rest⟩

end Request

theorem Fed.Ok.append {plans : List Plan} {x : Fed E} (h : x.Ok P plans) (more : List Plan) :
    x.Ok P (plans ++ more) := by
  obtain ⟨plan, start, stop⟩ := step_append (P := P) h.plan more
  exact ⟨plan, start ▸ h.above, stop ▸ h.below⟩

theorem Entered.Ok.append {plans : List Plan} {k : ℕ} {x : Entered E} (h : x.Ok P plans k)
    (more : List Plan) : x.Ok P (plans ++ more) k where
  serves := by
    obtain ⟨j, pl, step, serves, above, below⟩ := h.serves
    obtain ⟨step', start, stop⟩ := step_append (P := P) step more
    exact ⟨j, pl, step', serves, start ▸ above, stop ▸ below⟩
  rows l := by
    obtain ⟨f, row, number, ok⟩ := h.rows l
    exact ⟨f, row, number, ok.append more⟩

/-! ### Every run -/

theorem Feeding.init (h : s.Init) : Feeding P s 0 fun _ => 0 where
  idle _ := ⟨by rw [h.entered]; rfl, h.fireCounter⟩
  pending valid := absurd valid (by rw [h.reqValid]; decide)
  flushing valid := absurd valid (by rw [h.reqValid]; decide)
  totals := by simp [h.steps]
  chain := by
    rw [h.cntl]
    refine ⟨?_, funext fun l => (h.fired l).symm⟩
    rw [State.begun, h.steps]
    split_ifs <;> rfl
  held l := .inl (by rw [State.held, h.entered, h.buf l]; rfl)
  late := by simp [h.cntl]
  buf := by simp [h.buf]
  log := by simp [h.entered]

section Next

variable [Zero E] {m : ℕ} {start : Lane → ℕ}

theorem Feeding.buf_ok (h : Feeding P s m start) (l : Lane) (x : Fed E)
    (mem : (s.next P inp).buf.get l = some x) :
    x.number = (s.next P inp).entered.length ∧ x.Ok P s.steps := by
  rw [buf_next] at mem
  cases arrives : s.arrives P inp l with
  | some y =>
    rw [arrives] at mem
    obtain rfl := Option.some.inj mem
    cases queue : s.cntl with
    | nil =>
      rw [Feeding.arrives_of_nil queue] at arrives
      cases arrives
    | cons e rest => exact (h.of_arrives queue arrives).2.2.2
  | none =>
    rw [arrives] at mem
    dsimp only at mem
    cases next : s.inputNextRow with
    | true =>
      rw [next, if_pos rfl] at mem
      cases mem
    | false =>
      rw [next, if_neg Bool.false_ne_true] at mem
      rw [entered_next_length, next]
      exact h.buf l x mem

theorem Feeding.log_ok (h : Feeding P s m start) (k : ℕ) (x : Entered E)
    (mem : (s.next P inp).entered[k]? = some x) : x.Ok P s.steps k := by
  change (if s.inputNextRow && decide (s.req.flush = 0) then s.entered ++ [⟨s.req, s.buf⟩]
    else s.entered)[k]? = some x at mem
  split_ifs at mem with enters
  · rcases lt_trichotomy k s.entered.length with lt | rfl | gt
    · rw [List.getElem?_append_left lt] at mem
      exact h.log k x mem
    · rw [List.getElem?_concat_length] at mem
      obtain rfl := Option.some.inj mem
      rw [Bool.and_eq_true, decide_eq_true_iff] at enters
      obtain ⟨next, flush⟩ := enters
      obtain ⟨j, pl, rfl, step, serves, lt, entered⟩ := h.pending (reqValid_of_next next) flush
      refine ⟨⟨j, pl, step, serves, ?_, ?_⟩, fun l => ?_⟩
      · omega
      · rw [boundary_succ step]
        omega
      · have full := held_eq_succ_iff.mp (((inputNextRow_iff flush).mp next).2 l)
        obtain ⟨f, row⟩ := Option.isSome_iff_exists.mp full
        obtain ⟨number, ok⟩ := h.buf l f row
        exact ⟨f, row, number, ok⟩
    · rw [List.getElem?_eq_none (by rw [List.length_append, List.length_singleton]; omega)] at mem
      cases mem
  · exact h.log k x mem

theorem Feeding.next (h : Feeding P s m start) (rows : Rows P s) (four : 4 ≤ P.array.dim)
    (wf : WellFormed P s) :
    ∃ start', Feeding P (s.next P inp) (m + (s.taken P inp).isSome.toNat) start' := by
  obtain ⟨more, steps, totals⟩ := rows.steps_next four wf inp
  have bufs : ∀ l, ∀ x ∈ (s.next P inp).buf.get l, x.number = (s.next P inp).entered.length ∧
      x.Ok P (s.next P inp).steps := fun l x mem =>
    (h.buf_ok l x mem).imp_right fun ok => steps ▸ ok.append more
  have log (k : ℕ) (x : Entered E) (mem : (s.next P inp).entered[k]? = some x) :
      x.Ok P (s.next P inp).steps k := steps ▸ (h.log_ok k x mem).append more
  have totals' : ∀ pl ∈ (s.next P inp).steps, IsTotal P (pl.totalRows P) := by
    intro pl mem
    rw [steps, List.mem_append] at mem
    exact mem.elim (h.totals pl) (totals pl)
  have cntl : (s.next P inp).cntl =
      (if s.deqFire P inp then s.cntl.tail else s.cntl) ++ (s.enq P inp).toList := rfl
  -- a queue whose rows have all left the operands level has nothing to wait for
  have level {m' : ℕ} {start' : Lane → ℕ} {q : List Entry}
      (queue : (s.next P inp).cntl = q ++ (s.enq P inp).toList)
      (chain : Chain P s.steps m' start' q s.begun s.fired.get)
      (held : ∀ l, (s.next P inp).held l = start' l)
      (pending : Pending P (s.next P inp) s.steps m') (le : m' ≤ s.steps.length) :
      Feeding P (s.next P inp) m' start' := {
    toPending := steps ▸ pending.append le more
    totals := totals'
    chain := queue ▸ rows.chain_next four wf chain
    held := fun l => .inl (held l)
    late := fun e _ _ any => by
      obtain ⟨l, fires⟩ := Entry.any_iff.mp any
      exact ⟨l, fires, held l⟩
    buf := bufs
    log }
  cases queue : s.cntl with
  | nil =>
    have chain := h.chain
    have stays : s.deqFire P inp = false := by rw [State.deqFire, queue]
    rw [taken_of_nil queue]
    refine ⟨start, level (q := []) ?_ (queue ▸ chain) (fun l => ?_) ?_ h.le_length⟩
    · rw [cntl, stays, if_neg Bool.false_ne_true, queue]
    · rw [h.held_next_of_none (Feeding.arrives_of_nil queue)]
      exact h.held_of_nil queue l
    · cases fire : s.reqFire P inp with
      | none => exact h.pending_of_none four fire
      | some r =>
        have here := fire
        rw [State.reqFire, queue] at here
        dsimp only at here
        split_ifs at here with ready control
        exact h.pending_of_flush rows four queue control (here ▸ fire)
  | cons e rest =>
    obtain ⟨ok, number, serial, chain⟩ := h.head queue
    have deq : s.deqFire P inp = s.deqReady P inp e := by rw [State.deqFire, queue]
    have fire : s.reqFire P inp =
        if s.deqReady P inp e && e.first && e.any then some (s.requestOf P e) else none :=
      h.reqFire_of_head queue
    have lt := ok.lt
    cases leaves : s.deqReady P inp e with
    | true =>
      rw [leaves, Bool.true_and] at fire
      have requested : m + (s.taken P inp).isSome.toNat =
          e.serial + (!e.first || e.any).toNat := by
        rw [h.taken_of_head queue, leaves, Bool.true_and, serial]
        cases e.first <;> cases e.any <;> rfl
      rw [requested]
      refine ⟨_, level (q := rest) ?_ chain (h.held_next_of_deq queue leaves) ?_ ?_⟩
      · rw [cntl, deq, leaves, if_pos rfl, queue, List.tail_cons]
      · cases asks : e.first && e.any with
        | true =>
          rw [asks, if_pos rfl] at fire
          rw [Bool.and_eq_true] at asks
          rw [asks.2, Bool.or_true]
          exact h.pending_of_entry four queue fire asks.1
        | false =>
          rw [asks, if_neg Bool.false_ne_true] at fire
          have none' : s.taken P inp = none := by rw [State.taken, fire]; rfl
          rw [none'] at requested
          exact requested ▸ h.pending_of_none four fire
      · have := Bool.toNat_le (!e.first || e.any)
        omega
    | false =>
      rw [leaves, Bool.false_and, Bool.false_and, if_neg Bool.false_ne_true] at fire
      have queue' : (s.next P inp).cntl = s.cntl ++ (s.enq P inp).toList := by
        rw [cntl, deq, leaves, if_neg Bool.false_ne_true]
      have head : (s.next P inp).cntl.head? = some e := by rw [queue', queue]; rfl
      have none' : s.taken P inp = none := by rw [State.taken, fire]; rfl
      rw [none']
      refine ⟨start, {
        toPending := steps ▸ (h.pending_of_none four fire).append h.le_length more
        totals := totals'
        chain := queue' ▸ rows.chain_next four wf h.chain
        held := fun l => ?_
        late := fun e' mem first _ => ?_
        buf := bufs
        log }⟩
      · exact (h.held_next queue l).imp_right fun early => ⟨e, head, early⟩
      · rw [head, Option.mem_some_iff] at mem
        subst mem
        exact h.late_of_stay queue leaves first

end Next

structure Orderly (P : Params) (s : State E) : Prop where
  rows : Rows P s
  feeding : ∃ m start, Feeding P s m start

theorem Orderly.init (h : s.Init) : Orderly P s := ⟨.init h, 0, _, .init h⟩

theorem Orderly.next [Zero E] (h : Orderly P s) (four : 4 ≤ P.array.dim) (wf : WellFormed P s) :
    Orderly P (s.next P inp) := by
  obtain ⟨rows, m, start, feeding⟩ := h
  exact ⟨rows.next four wf, _, feeding.next rows four wf⟩

end Gemmini.Execute
