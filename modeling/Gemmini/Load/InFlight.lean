import Gemmini.Lib.Writes
import Gemmini.Load.Model

/-!
# Loads in flight

The reservation station issues mvins in the order of allocation, a next one as soon as the rows of the
one before have been sent; the memory answers in any order; rows wait in front of the banks behind the
two scalers and the zero writer.  A zero row of the accumulator takes its place in the bank and its
accumulate flag from a scaler that offers a row of the accumulator in the same cycle.
-/

namespace Gemmini.Load

open ReservationStation (Cmd)

/-- The unit that a row leaves for its bank: `mvin_scale`, `mvin_scale_acc` or `zero_writer`. -/
inductive Path
  | scale
  | scaleAcc
  | zeros
  deriving DecidableEq, Repr

/-- A row for the scratchpad or the accumulator, and what it does there by its accumulate flag. -/
structure Row (α : Type*) where
  isAcc : Bool
  row : ℕ
  accumulate : Bool
  update : Bool → α → α

variable {α : Type*}

def Row.write (r : Row α) : Write (Bool × ℕ) α := ⟨(r.isAcc, r.row), r.update r.accumulate⟩

/-- `bio.write.bits` for a zero row: in its own bank of the accumulator, but with `acc_row` and the
accumulate flag of the row that a scaler offers. -/
def Row.beside (g : Geometry) (zero offered : Row α) : Row α :=
  if zero.isAcc && offered.isAcc then
    let size := 2 ^ g.accBankRowBits
    { zero with row := zero.row / size * size + offered.row % size, accumulate := offered.accumulate }
  else zero

/-- A DMA request, by the rows that are written for it: by the zero writer, or by transactions whose
rows go to one of the scalers. -/
inductive RowRequest (α : Type*)
  | zeros (rows : List (Row α))
  | read (acc : Bool) (xacts : List (List (Row α)))

def RowRequest.path : RowRequest α → Path
  | .zeros _ => .zeros
  | .read acc _ => if acc then .scaleAcc else .scale

def RowRequest.rows : RowRequest α → List (Row α)
  | .zeros rows => rows
  | .read _ xacts => xacts.flatten

def RowRequest.writes (req : RowRequest α) : List (Write (Bool × ℕ) α) := req.rows.map Row.write

open RowRequest (writes)

/-- A row in flight; it enters the queue of its unit when its transaction is answered. -/
structure Item (α : Type*) where
  row : Row α
  path : Path
  xact : ℕ
  entered : Option ℕ

structure InFlight (α : Type*) where
  /-- Mvins in the reservation station, by their requests. -/
  waiting : List (List (RowRequest α))
  sending : List (RowRequest α)
  flight : List (Item α)
  memory : Bool × ℕ → α
  xacts : ℕ
  clock : ℕ
  /-- The memory at the start, and all writes of all mvins in program order. -/
  start : Bool × ℕ → α
  log : List (Write (Bool × ℕ) α)

inductive Event (α : Type*)
  | allocate (mvin : List (RowRequest α))
  | issue
  | send
  | answer (xact : ℕ)
  /-- A bank takes row `i`, while a scaler offers the row `offered` to the accumulator. -/
  | write (i : ℕ) (offered : Option ℕ)

def Item.write (x : Item α) : Write (Bool × ℕ) α := x.row.write

/-- What the bank gets, with the scaler row that is offered in the same cycle. -/
def Item.written (g : Geometry) (x : Item α) : Option (Item α) → Write (Bool × ℕ) α
  | some y => if x.path = .zeros then (x.row.beside g y.row).write else x.write
  | none => x.write

def Item.enter (t : ℕ) (x : Item α) : Item α := { x with entered := some t }

/-- The rows of a request when it has been sent.  Every transaction has a number of its own. -/
def items (xacts clock : ℕ) : RowRequest α → List (Item α)
  | .zeros rows => rows.map fun r => ⟨r, .zeros, xacts, some clock⟩
  | .read acc parts => parts.zipIdx.flatMap fun part =>
      part.1.map fun r => ⟨r, if acc then .scaleAcc else .scale, xacts + part.2, none⟩

def RowRequest.size : RowRequest α → ℕ
  | .zeros _ => 0
  | .read _ xacts => xacts.length

def IsNext (flight : List (Item α)) (i : ℕ) : Prop :=
  ∃ x ∈ flight[i]?, ∃ t ∈ x.entered, ∀ j < flight.length, ∀ y ∈ flight[j]?, y.path = x.path →
    ∀ u ∈ y.entered, t < u ∨ t = u ∧ i ≤ j

instance (flight : List (Item α)) (i : ℕ) : Decidable (IsNext flight i) := by
  unfold IsNext
  infer_instance

def InFlight.next (g : Geometry) (s : InFlight α) : Event α → InFlight α
  | .allocate mvin => { s with
      waiting := s.waiting ++ [mvin]
      log := s.log ++ mvin.flatMap writes }
  | .issue => { s with waiting := s.waiting.tail, sending := s.waiting.headD [] }
  | .send => match s.sending with
    | [] => s
    | req :: rest => { s with
        sending := rest
        flight := s.flight ++ items s.xacts s.clock req
        xacts := s.xacts + req.size
        clock := s.clock + 1 }
  | .answer xact => { s with
      flight := s.flight.map fun x =>
        if x.xact = xact ∧ x.entered = none then x.enter s.clock else x
      clock := s.clock + 1 }
  | .write i offered => match s.flight[i]? with
    | none => s
    | some x => { s with
        flight := s.flight.eraseIdx i
        memory := (x.written g (offered.bind (s.flight[·]?))).store s.memory }

/-- The reservation station issues a load when the rows of the one before have been sent, a bank takes the
next row of some unit, and a scaler offers its next row. -/
def InFlight.legal (s : InFlight α) : Event α → Prop
  | .allocate _ => True
  | .issue => s.sending = [] ∧ s.waiting ≠ []
  | .send => s.sending ≠ []
  | .answer xact => ∃ x ∈ s.flight, x.xact = xact ∧ x.entered = none
  | .write i offered => IsNext s.flight i ∧
      ∀ j ∈ offered, IsNext s.flight j ∧ ∀ y ∈ s.flight[j]?, y.path ≠ .zeros

instance (s : InFlight α) : ∀ e, Decidable (s.legal e)
  | .allocate _ => inferInstanceAs (Decidable True)
  | .issue => decidable_of_iff (s.sending.isEmpty = true ∧ s.waiting.isEmpty = false) (by
      cases h : s.sending <;> cases h' : s.waiting <;> simp [InFlight.legal, h, h'])
  | .send => decidable_of_iff (s.sending.isEmpty = false) (by
      cases h : s.sending <;> simp [InFlight.legal, h])
  | .answer xact => decidable_of_iff (∃ x ∈ s.flight, x.xact = xact ∧ x.entered.isNone = true) (by
      simp [InFlight.legal])
  | .write i offered => inferInstanceAs (Decidable (IsNext s.flight i ∧ ∀ j ∈ offered, _ ∧ ∀ y ∈ _, _))

def loadPath (g : Geometry) (α : Type*) : Machine (InFlight α) (Event α) where
  init s := s.waiting = [] ∧ s.sending = [] ∧ s.flight = [] ∧ s.log = [] ∧ s.memory = s.start
  legal := InFlight.legal
  step := InFlight.next g

instance (g : Geometry) (s : InFlight α) (e : Event α) : Decidable ((loadPath g α).legal s e) :=
  inferInstanceAs (Decidable (s.legal e))

/-! ### Program order -/

/-- A row is requested while those in flight with its address are on the same way, a transaction is
answered after older ones with its rows, and no zero row of the accumulator is written while a scaler
offers a row of the accumulator. -/
def InOrder (s : InFlight α) : Event α → Prop
  | .send => ∀ req ∈ s.sending.head?, ∀ x ∈ s.flight, ∀ w ∈ req.writes, x.write.key = w.key →
      x.path = req.path
  | .answer xact => s.flight.Pairwise fun x y => y.xact = xact → y.entered = none →
      x.entered = none → x.write.key = y.write.key → x.xact = xact
  | .write i offered => ∀ x ∈ s.flight[i]?, ∀ y ∈ offered.bind (s.flight[·]?), x.path = .zeros →
      x.row.isAcc = true → y.row.isAcc = false
  | _ => True

instance (s : InFlight α) : ∀ e, Decidable (InOrder s e)
  | .allocate _ => inferInstanceAs (Decidable True)
  | .issue => inferInstanceAs (Decidable True)
  | .send => inferInstanceAs (Decidable (∀ req ∈ s.sending.head?, ∀ x ∈ s.flight, ∀ w ∈ req.writes, _ → _))
  | .answer _ => inferInstanceAs (Decidable (s.flight.Pairwise fun _ _ => _ → _ → _ → _ → _))
  | .write _ _ => inferInstanceAs (Decidable (∀ x ∈ _, ∀ y ∈ _, _ → _ → _))

/-- An older row with the same address is on the same way, and does not enter it later. -/
def Before (x y : Item α) : Prop :=
  x.write.key = y.write.key →
    x.path = y.path ∧ ∀ t, y.entered = some t → ∃ u ≤ t, x.entered = some u

/-- The writes of the rows that have not been requested. -/
def InFlight.later (s : InFlight α) : List (Write (Bool × ℕ) α) :=
  s.sending.flatMap writes ++ s.waiting.flatMap fun mvin => mvin.flatMap writes

def InFlight.due (s : InFlight α) : List (Write (Bool × ℕ) α) := s.flight.map Item.write ++ s.later

structure Ordered (s : InFlight α) : Prop where
  pairs : s.flight.Pairwise Before
  stamps : ∀ x ∈ s.flight, ∀ t, x.entered = some t → t < s.clock
  zeros : ∀ x ∈ s.flight, x.path = .zeros → ∃ t, x.entered = some t
  /-- With all that is due, the memory is that of the program order. -/
  result : Write.storeAll s.due s.memory = Write.storeAll s.log s.start

theorem items_write (xacts clock : ℕ) (req : RowRequest α) :
    (items xacts clock req).map Item.write = req.writes := by
  cases req with
  | zeros rows => simp [items, writes, RowRequest.rows, Item.write, Function.comp_def]
  | read acc parts =>
    have each : ∀ part : List (Row α) × ℕ, (part.1.map fun r =>
        (⟨r, if acc then .scaleAcc else .scale, xacts + part.2, none⟩ : Item α)).map Item.write =
        part.1.map Row.write := by
      intro part
      simp [Item.write, Function.comp_def]
    simp only [items, writes, RowRequest.rows, List.map_flatMap, each]
    rw [← List.map_flatMap, List.flatMap_def, List.zipIdx_map_fst]

theorem items_spec {xacts clock : ℕ} {req : RowRequest α} {x : Item α}
    (mem : x ∈ items xacts clock req) : x.write ∈ req.writes ∧ x.path = req.path ∧
      (x.entered = none ∧ req.path ≠ .zeros ∨ x.entered = some clock ∧ req.path = .zeros) := by
  have write : x.write ∈ req.writes := by
    rw [← items_write xacts clock req]
    exact List.mem_map_of_mem mem
  refine ⟨write, ?_⟩
  cases req with
  | zeros ws =>
    obtain ⟨w, -, rfl⟩ := List.mem_map.mp mem
    exact ⟨rfl, .inr ⟨rfl, rfl⟩⟩
  | read acc parts =>
    obtain ⟨part, -, mem⟩ := List.mem_flatMap.mp mem
    obtain ⟨w, -, rfl⟩ := List.mem_map.mp mem
    refine ⟨rfl, .inl ⟨rfl, ?_⟩⟩
    cases acc <;> exact nofun

theorem Ordered.older_ne {s : InFlight α} (ordered : Ordered s) {i : ℕ} {x : Item α}
    (here : s.flight[i]? = some x) (next : IsNext s.flight i) :
    ∀ u ∈ s.flight.take i, u.write.key ≠ x.write.key := by
  intro u mem same
  obtain ⟨x', here', t, enters, first⟩ := next
  obtain rfl : x = x' := by simpa [here] using here'
  obtain ⟨j, lt, rfl⟩ := List.mem_take_iff_getElem.mp mem
  have inside : i < s.flight.length := (List.getElem?_eq_some_iff.mp here).1
  have older := List.pairwise_iff_getElem.mp ordered.pairs j i (by omega) inside (by omega)
  rw [show s.flight[i] = x from (List.getElem?_eq_some_iff.mp here).2] at older
  obtain ⟨path, enter⟩ := older same
  obtain ⟨u, le, hu⟩ := enter t enters
  have at_j := List.getElem?_eq_getElem (show j < s.flight.length by omega)
  rcases first j (by omega) _ at_j path u hu with later | ⟨-, later⟩
  · omega
  · omega

namespace Ordered

variable {s : InFlight α} (ordered : Ordered s)
include ordered

theorem allocate (mvin : List (RowRequest α)) : Ordered (s.next g (.allocate mvin)) where
  pairs := ordered.pairs
  stamps := ordered.stamps
  zeros := ordered.zeros
  result := by
    have due : (s.next g (.allocate mvin)).due = s.due ++ mvin.flatMap writes := by
      simp [InFlight.due, InFlight.later, InFlight.next]
    have log : (s.next g (.allocate mvin)).log = s.log ++ mvin.flatMap writes := rfl
    rw [due, log, Write.storeAll_append, Write.storeAll_append]
    exact congrArg _ ordered.result

theorem issue (idle : s.sending = []) : Ordered (s.next g .issue) where
  pairs := ordered.pairs
  stamps := ordered.stamps
  zeros := ordered.zeros
  result := by
    have due : (s.next g .issue).due = s.due := by
      unfold InFlight.due InFlight.later InFlight.next
      simp only [idle]
      cases s.waiting <;> simp
    rw [due]
    exact ordered.result

theorem send (inOrder : InOrder s .send) : Ordered (s.next g .send) := by
  cases sending : s.sending with
  | nil =>
    have same : s.next g .send = s := by simp [InFlight.next, sending]
    rwa [same]
  | cons req rest =>
    have next : s.next g .send = { s with
        sending := rest, flight := s.flight ++ items s.xacts s.clock req
        xacts := s.xacts + req.size, clock := s.clock + 1 } := by
      simp [InFlight.next, sending]
    have way := inOrder req (by simp [sending])
    rw [next]
    constructor
    · refine List.pairwise_append.mpr ⟨ordered.pairs, ?_, ?_⟩
      · -- the rows of one request: all outstanding, or all in the queue
        apply List.pairwise_of_forall_mem_list
        intro x hx y hy _
        obtain ⟨-, pathx, enterx⟩ := items_spec hx
        obtain ⟨-, pathy, entery⟩ := items_spec hy
        refine ⟨pathx.trans pathy.symm, fun t enters => ⟨t, le_rfl, ?_⟩⟩
        rcases enterx with ⟨-, read⟩ | ⟨enterx, zeros⟩
        · rcases entery with ⟨none, -⟩ | ⟨-, zeros⟩
          · simp [none] at enters
          · exact absurd zeros read
        · rcases entery with ⟨-, read⟩ | ⟨entery, -⟩
          · exact absurd zeros read
          · rw [enterx, ← entery, enters]
      · intro x hx y hy same
        obtain ⟨mem, pathy, entery⟩ := items_spec hy
        have path := way x hx y.write mem same
        refine ⟨path.trans pathy.symm, fun t enters => ?_⟩
        rcases entery with ⟨none, -⟩ | ⟨entery, zeros⟩
        · simp [none] at enters
        · obtain ⟨u, hu⟩ := ordered.zeros x hx (path.trans zeros)
          have := ordered.stamps x hx u hu
          have : t = s.clock := by simpa [entery] using enters.symm
          exact ⟨u, by omega, hu⟩
    · intro x mem t enters
      rcases List.mem_append.mp mem with old | new
      · have := ordered.stamps x old t enters
        exact Nat.lt_succ_of_lt this
      · obtain ⟨-, -, ⟨none, -⟩ | ⟨enter, -⟩⟩ := items_spec new
        · simp [none] at enters
        · rw [enter] at enters
          obtain rfl : s.clock = t := by simpa using enters
          exact Nat.lt_succ_self _
    · intro x mem zeros
      rcases List.mem_append.mp mem with old | new
      · exact ordered.zeros x old zeros
      · obtain ⟨-, path, ⟨-, read⟩ | ⟨enter, -⟩⟩ := items_spec new
        · exact absurd (path.symm.trans zeros) read
        · exact ⟨_, enter⟩
    · have due : InFlight.due { s with
          sending := rest, flight := s.flight ++ items s.xacts s.clock req
          xacts := s.xacts + req.size, clock := s.clock + 1 } = s.due := by
        simp [InFlight.due, InFlight.later, sending, items_write]
      rw [due]
      exact ordered.result

theorem answer {xact : ℕ} (inOrder : InOrder s (.answer xact)) :
    Ordered (s.next g (.answer xact)) := by
  have write : ∀ x : Item α,
      (if x.xact = xact ∧ x.entered = none then x.enter s.clock else x).write = x.write := by
    intro x
    split_ifs <;> rfl
  have path : ∀ x : Item α,
      (if x.xact = xact ∧ x.entered = none then x.enter s.clock else x).path = x.path := by
    intro x
    split_ifs <;> rfl
  constructor
  · refine List.pairwise_map.mpr ?_
    refine ((List.Pairwise.and_mem.mp ordered.pairs).and inOrder).imp ?_
    rintro x y ⟨⟨hx, hy, before⟩, fresh⟩ same
    rw [write, write] at same
    rw [path, path]
    obtain ⟨samePath, enter⟩ := before same
    refine ⟨samePath, fun t enters => ?_⟩
    split_ifs at enters with answered
    · obtain rfl : s.clock = t := by simpa [Item.enter] using enters
      cases hu : x.entered with
      | none =>
        have together := fresh answered.1 answered.2 hu same
        exact ⟨s.clock, le_rfl, by simp [together, Item.enter]⟩
      | some u => exact ⟨u, (ordered.stamps x hx u hu).le, by simp [hu]⟩
    · obtain ⟨u, le, hu⟩ := enter t enters
      exact ⟨u, le, by simp [hu]⟩
  · intro x mem t enters
    obtain ⟨y, hy, rfl⟩ := List.mem_map.mp mem
    split_ifs at enters
    · obtain rfl : s.clock = t := by simpa [Item.enter] using enters
      exact Nat.lt_succ_self _
    · exact Nat.lt_succ_of_lt (ordered.stamps y hy t enters)
  · intro x mem zeros
    obtain ⟨y, hy, rfl⟩ := List.mem_map.mp mem
    rw [path] at zeros
    obtain ⟨t, ht⟩ := ordered.zeros y hy zeros
    refine ⟨t, ?_⟩
    rw [if_neg (by simp [ht])]
    exact ht
  · have due : (s.next g (.answer xact)).due = s.due := by
      simp [InFlight.due, InFlight.later, InFlight.next, Function.comp_def, write]
    rw [due]
    exact ordered.result

theorem write {i : ℕ} {offered : Option ℕ} (next : IsNext s.flight i)
    (inOrder : InOrder s (.write i offered)) : Ordered (s.next g (.write i offered)) := by
  obtain ⟨x, mem, -⟩ := id next
  have here : s.flight[i]? = some x := mem
  obtain ⟨inside, at_i⟩ := List.getElem?_eq_some_iff.mp here
  have own : x.written g (offered.bind (s.flight[·]?)) = x.write := by
    cases row : offered.bind (s.flight[·]?) with
    | none => rfl
    | some y =>
      have apart := inOrder x mem y row
      show (if x.path = .zeros then (x.row.beside g y.row).write else x.write) = x.write
      split_ifs with zeros
      · have kept : x.row.beside g y.row = x.row := by
          refine if_neg fun both => ?_
          obtain ⟨zero, offers⟩ := Bool.and_eq_true_iff.mp both
          exact absurd (apart zeros zero) (by simp [offers])
        rw [kept, Item.write]
      · rfl
  have step : s.next g (.write i offered) = { s with
      flight := s.flight.eraseIdx i, memory := x.write.store s.memory } := by
    simp only [InFlight.next, here, own]
  rw [step]
  have sub : (s.flight.eraseIdx i).Sublist s.flight := List.eraseIdx_sublist _ _
  constructor
  · exact ordered.pairs.sublist sub
  · exact fun y mem => ordered.stamps y (sub.mem mem)
  · exact fun y mem => ordered.zeros y (sub.mem mem)
  · have older := ordered.older_ne here next
    have split : s.flight = s.flight.take i ++ x :: s.flight.drop (i + 1) := by
      rw [← at_i, List.getElem_cons_drop, List.take_append_drop]
    have others : ∀ u ∈ (s.flight.take i).map Item.write, u.key ≠ x.write.key :=
      List.forall_mem_map.mpr older
    have pulled := Write.storeAll_pull others ((s.flight.drop (i + 1)).map Item.write ++ s.later) s.memory
    have due : s.due = (s.flight.take i).map Item.write ++ x.write ::
        ((s.flight.drop (i + 1)).map Item.write ++ s.later) := by
      unfold InFlight.due
      conv_lhs => rw [split]
      simp
    rw [← ordered.result, due, pulled, InFlight.due, List.eraseIdx_eq_take_drop_succ, List.map_append,
      List.append_assoc]
    rfl

theorem next {e : Event α} (legal : s.legal e) (inOrder : InOrder s e) : Ordered (s.next g e) := by
  cases e with
  | allocate mvin => exact ordered.allocate mvin
  | issue => exact ordered.issue legal.1
  | send => exact ordered.send inOrder
  | answer xact => exact ordered.answer inOrder
  | write i offered => exact ordered.write legal.1 inOrder

end Ordered

theorem ordered_of_reachable {s : InFlight α}
    (reach : ((loadPath g α).restrict InOrder).Reachable s) : Ordered s := by
  apply reach.invariant
  · rintro s ⟨waiting, sending, flight, log, memory⟩
    refine ⟨by simp [flight], by simp [flight], by simp [flight], ?_⟩
    simp [InFlight.due, InFlight.later, waiting, sending, flight, log, memory]
  · intro s e _ ordered legal
    exact ordered.next legal.1 legal.2

/-- Loads take effect in program order in every run in which rows with the same address go the same way
and are answered in the order of their transactions, and no zero row is written beside another row of the
accumulator. -/
theorem loads_in_program_order {s : InFlight α}
    (reach : ((loadPath g α).restrict InOrder).Reachable s)
    (drained : s.waiting = [] ∧ s.sending = [] ∧ s.flight = []) :
    s.memory = Write.storeAll s.log s.start := by
  have ordered := ordered_of_reachable reach
  obtain ⟨waiting, sending, flight⟩ := drained
  have due : s.due = [] := by simp [InFlight.due, InFlight.later, waiting, sending, flight]
  have result := ordered.result
  rwa [due, Write.storeAll_nil] at result

/-! ### The requests of an mvin -/

section Requests

variable (p : ArrayConfig)

def rowNumber (isAcc : Bool) (laddr : LocalAddr) : ℕ :=
  if isAcc then laddr.data % 2 ^ p.geometry.accAddrBits else laddr.row p.geometry

/-- What a request makes of the rows with `data`; without a shared scaler, rows in the width of the
accumulator have one of their own. -/
def rowRequest (mvinScaleShared : Bool) (data : LocalAddr → Bool → α → α) (req : ReadRequest) :
    RowRequest α :=
  let isAcc := req.laddr.isAccAddr
  let acc := isAcc && req.hasAccBitwidth && !mvinScaleShared
  let pixels := fun laddr => PixelRepeater.all p.geometry laddr req.pixelRepeats
  let row := fun laddr => (⟨isAcc, rowNumber p isAcc laddr, req.laddr.accumulate, data laddr⟩ : Row α)
  if req.allZeros then .zeros (((zeroWriter p req).flatMap pixels).map row)
  else .read acc ((packets p (lenBytes p req) (lenBytes p req) req.vaddr 0).map fun packet =>
    (((mergedRows p req packet).flatMap (scaled p req)).flatMap
      (if acc then fun laddr => [laddr] else pixels)).map row)

variable {p}

def mvinRequests (mvinScaleShared : Bool) (r : Regs) (c : Mvin p)
    (data : LocalAddr → Bool → α → α) : List (RowRequest α) :=
  (requests r c).map (rowRequest p mvinScaleShared data)

/-- The load path writes the rows of an mvin to the scratchpad. -/
theorem mvinRequests_rows (mvinScaleShared : Bool) (r : Regs) (c : Mvin p)
    (data : LocalAddr → Bool → α → α) (sp : c.localaddr.isAccAddr = false) :
    ((mvinRequests mvinScaleShared r c data).flatMap writes).map Write.key =
      (rowsWritten r c).map fun a => (false, a.row p.geometry) := by
  have each : ∀ req ∈ requests r c, (rowRequest p mvinScaleShared data req).writes.map Write.key =
      (requestRows p req).map fun a => (false, a.row p.geometry) := by
    intro req mem
    obtain ⟨i, -, rfl⟩ := List.mem_map.mp mem
    have local' : (request r c i).laddr.isAccAddr = false := sp
    unfold rowRequest requestRows streamReader
    simp only [local', Bool.false_and, rowNumber, Bool.false_eq_true, if_false]
    split_ifs
    · simp [writes, RowRequest.rows, Row.write, Function.comp_def]
    · rw [writes, RowRequest.rows, ← List.flatMap_def, List.map_map]
      simp [Row.write, Function.comp_def, List.map_flatMap, List.flatMap_assoc]
  unfold mvinRequests rowsWritten
  rw [List.map_flatMap, List.flatMap_map, List.map_flatMap]
  exact List.flatMap_congr each

end Requests

/-! ### Two loads of one row -/

def plainRegs : Regs := ⟨fun _ => 4, fun _ => false, fun _ => 4, fun _ => 1⟩

/-- The mvin of a row of four columns from `vaddr` to row 3. -/
def rowLoad (vaddr : BitVec 64) : Cmd := ⟨.load, vaddr, BitVec.ofNat 64 (2 ^ 48 + 4 * 2 ^ 32 + 3)⟩

def olderMvin : Mvin fourArray :=
  ⟨rowLoad 64, by decide, by decide, by decide, by decide, by decide⟩

def youngerMvin : Mvin fourArray :=
  ⟨rowLoad 128, by decide, by decide, by decide, by decide, by decide⟩

def zeroMvin : Mvin fourArray :=
  ⟨rowLoad 0, by decide, by decide, by decide, by decide, by decide⟩

def named (c : Mvin fourArray) (name : ℕ) : List (RowRequest ℕ) :=
  mvinRequests false plainRegs c fun _ _ _ => name

def emptyPath : InFlight ℕ := ⟨[], [], [], fun _ => 0, 0, 0, fun _ => 0, []⟩

def twoLoads (second : Mvin fourArray) (rest : List (Event ℕ)) :
    List (Event ℕ) :=
  [.allocate (named olderMvin 1), .allocate (named second 2), .issue, .send, .issue, .send] ++ rest

def afterLoads (second : Mvin fourArray) (rest : List (Event ℕ)) :
    InFlight ℕ :=
  (loadPath fourArray.geometry ℕ).run emptyPath (twoLoads second rest)

def InFlight.idle (s : InFlight α) : Bool :=
  s.waiting.isEmpty && s.sending.isEmpty && s.flight.isEmpty

theorem answered_in_order :
    (afterLoads youngerMvin [.answer 0, .answer 1, .write 0 none, .write 0 none]).memory (false, 3) = 2 := by
  have start : ((loadPath fourArray.geometry ℕ).restrict InOrder).Reachable emptyPath :=
    .init ⟨rfl, rfl, rfl, rfl, rfl⟩
  have reach := start.run (twoLoads youngerMvin [.answer 0, .answer 1, .write 0 none, .write 0 none])
    (by decide)
  rw [Machine.restrict_run] at reach
  have program := loads_in_program_order reach ⟨by decide, by decide, by decide⟩
  refine (congrFun program (false, 3)).trans ?_
  decide

/-- Answered in reverse, the row holds what the older mvin has loaded; a younger mvin of zeros is
overtaken even if all transactions are answered in order. -/
theorem older_load_stays :
    ((loadPath fourArray.geometry ℕ).LegalRun emptyPath
        (twoLoads youngerMvin [.answer 1, .answer 0, .write 1 none, .write 0 none]) ∧
      (afterLoads youngerMvin [.answer 1, .answer 0, .write 1 none, .write 0 none]).idle = true ∧
      (afterLoads youngerMvin [.answer 1, .answer 0, .write 1 none, .write 0 none]).memory (false, 3) = 1) ∧
    (loadPath fourArray.geometry ℕ).LegalRun emptyPath
        (twoLoads zeroMvin [.write 1 none, .answer 0, .write 0 none]) ∧
      (afterLoads zeroMvin [.write 1 none, .answer 0, .write 0 none]).idle = true ∧
      (afterLoads zeroMvin [.write 1 none, .answer 0, .write 0 none]).memory (false, 3) = 1 := by
  decide

end Gemmini.Load
