import Gemmini.Lib.DelayLine
import Gemmini.Lib.Machine
import Gemmini.Lib.Queue

/-!
# A dual-ported accumulator bank

`AccumulatorMem.scala` with `acc_singleported` off: a write passes `acc_latency` registers before the
memory; an accumulating write reads its row when it is accepted and is replaced by the sum that comes
back `acc_latency - 1` cycles later.  Reads and accumulating writes wait while a write to their row is
under way.
-/

namespace Gemmini.AccumulatorMem

/-- A row is `lanes` bytes, one for each mask bit. -/
abbrev Row (lanes : Nat) (Byte : Type) := Fin lanes → Byte

/-- What a read carries besides its address; the response returns it. -/
structure ReadTag (Scale Elem : Type) where
  scale : Scale
  igeluQb : Elem
  igeluQc : Elem
  iexpQln2 : Elem
  iexpQln2Inv : Elem
  act : Nat
  fromDMA : Bool
  deriving DecidableEq

/-- `AccumulatorReadReq`. -/
structure ReadReq (Addr Scale Elem : Type) where
  addr : Addr
  tag : ReadTag Scale Elem
  full : Bool

/-- `AccumulatorReadResp`; its `acc_bank_id` is set outside the bank. -/
structure ReadResp (lanes : Nat) (Byte Scale Elem : Type) where
  data : Row lanes Byte
  tag : ReadTag Scale Elem

/-- `AccumulatorWriteReq`. -/
structure WriteReq (Addr : Type) (lanes : Nat) (Byte : Type) where
  addr : Addr
  data : Row lanes Byte
  acc : Bool
  mask : Fin lanes → Bool

variable {Addr Byte Scale Elem : Type} {lanes : Nat}

/-- The registers.  Of the line `pipelined_writes` the first `acc_latency` are there; `rdata` is the
output register of the memory. -/
structure State (Addr : Type) (lanes : Nat) (Byte Scale Elem : Type) where
  pipelinedWrites : ℕ → Option (WriteReq Addr lanes Byte)
  mem : Addr → Row lanes Byte
  rdata : Row lanes Byte
  readTag : ReadTag Scale Elem
  readFired : Bool
  q : List (ReadResp lanes Byte Scale Elem)

/-- The inputs of one cycle.  `idleTag` is on idle tag wires, `undefined` is what the memory returns
when it is not read, or read where it is written. -/
structure Input (Addr : Type) (lanes : Nat) (Byte Scale Elem : Type) where
  read : Option (ReadReq Addr Scale Elem)
  write : Option (WriteReq Addr lanes Byte)
  respReady : Bool
  adderSum : Row lanes Byte
  idleTag : ReadTag Scale Elem
  undefined : Row lanes Byte

def merge (mask : Fin lanes → Bool) (new old : Row lanes Byte) : Row lanes Byte :=
  fun i => if mask i then new i else old i

/-- The response queue: one entry, `pipe` and `flow`. -/
def respQueue : QueueShape := ⟨1, true, true, Nat.one_pos⟩

section Wires

variable [DecidableEq Addr] (accLatency : Nat) (s : State Addr lanes Byte Scale Elem)
  (inp : Input Addr lanes Byte Scale Elem)

def underWay (addr : Addr) : Bool :=
  decide (∃ k < accLatency, ∃ w ∈ s.pipelinedWrites k, w.addr = addr)

def Input.accumulates : Bool := inp.write.any fun w => w.acc

/-- The write accepted in this cycle, `io.write.fire`. -/
def writeFire : Option (WriteReq Addr lanes Byte) :=
  inp.write.filter fun w => !(w.acc && underWay accLatency s w.addr)

/-- `q.io.enq`. -/
def respEnq : Option (ReadResp lanes Byte Scale Elem) :=
  if s.readFired then some ⟨s.rdata, s.readTag⟩ else none

/-- `io.read.resp.valid` with its bits. -/
def resp : Option (ReadResp lanes Byte Scale Elem) := respQueue.deq s.q (respEnq s)

def qWillBeEmpty : Bool :=
  s.q.length + (respQueue.enqFire s.q (respEnq s) inp.respReady).toList.length -
    (respQueue.deqFire s.q (respEnq s) inp.respReady).toList.length == 0

/-- The read accepted in this cycle, `io.read.req.fire`. -/
def readFire : Option (ReadReq Addr Scale Elem) :=
  inp.read.filter fun r =>
    qWillBeEmpty s inp && !inp.accumulates && !underWay accLatency s r.addr

/-- The operands given to the adder, while `adder.valid`. -/
def adderOps : Option (Row lanes Byte × Row lanes Byte) :=
  match s.pipelinedWrites 0 with
  | some w => if w.acc then some (s.rdata, w.data) else none
  | none => none

/-- `mem.io.raddr`, while `mem.io.ren`. -/
def memRead : Option Addr :=
  match (writeFire accLatency s inp).filter (fun w => w.acc), readFire accLatency s inp with
  | some w, _ => some w.addr
  | none, some r => some r.addr
  | none, none => none

def oldestPipelinedWrite : Option (WriteReq Addr lanes Byte) := s.pipelinedWrites (accLatency - 1)

def nextMem : Addr → Row lanes Byte :=
  match oldestPipelinedWrite accLatency s with
  | none => s.mem
  | some w => Function.update s.mem w.addr
      (merge w.mask (if w.acc then inp.adderSum else w.data) (s.mem w.addr))

def nextRdata : Row lanes Byte :=
  match memRead accLatency s inp with
  | none => inp.undefined
  | some a =>
    if (oldestPipelinedWrite accLatency s).any (fun w => w.addr = a) then inp.undefined
    else s.mem a

def step : State Addr lanes Byte Scale Elem where
  pipelinedWrites := Line.shift s.pipelinedWrites (writeFire accLatency s inp)
  mem := nextMem accLatency s inp
  rdata := nextRdata accLatency s inp
  readTag := (inp.read.map (·.tag)).getD inp.idleTag
  readFired := (readFire accLatency s inp).isSome
  q := respQueue.next s.q (respEnq s) inp.respReady

end Wires

/-! ### The memory that the bank stands for -/

section Abstract

variable [DecidableEq Addr] (add : Row lanes Byte → Row lanes Byte → Row lanes Byte)

def WriteReq.apply (w : WriteReq Addr lanes Byte) (m : Addr → Row lanes Byte) :
    Addr → Row lanes Byte :=
  Function.update m w.addr
    (merge w.mask (if w.acc then add (m w.addr) w.data else w.data) (m w.addr))

def applyAll : List (Option (WriteReq Addr lanes Byte)) → (Addr → Row lanes Byte) →
    Addr → Row lanes Byte
  | [], m => m
  | none :: older, m => applyAll older m
  | some w :: older, m => w.apply add (applyAll older m)

@[simp] theorem applyAll_some (w : WriteReq Addr lanes Byte)
    (older : List (Option (WriteReq Addr lanes Byte))) (m : Addr → Row lanes Byte) :
    applyAll add (some w :: older) m = w.apply add (applyAll add older m) := rfl

theorem WriteReq.apply_of_ne {w : WriteReq Addr lanes Byte} {a : Addr} (other : w.addr ≠ a)
    (m : Addr → Row lanes Byte) : w.apply add m a = m a :=
  Function.update_of_ne other.symm _ _

theorem applyAll_drop {a : Addr} (m : Addr → Row lanes Byte) (n : Nat)
    (writes : List (Option (WriteReq Addr lanes Byte)))
    (others : ∀ k < n, ∀ w, writes[k]? = some (some w) → w.addr ≠ a) :
    applyAll add writes m a = applyAll add (writes.drop n) m a := by
  induction n generalizing writes with
  | zero => rfl
  | succ n ih =>
    cases writes with
    | nil => rfl
    | cons x writes =>
      have rest := ih writes fun k hk w hw => others (k + 1) (by omega) w (by simpa using hw)
      cases x with
      | none => exact rest
      | some w =>
        have other : w.addr ≠ a := others 0 (by omega) w rfl
        rw [applyAll_some, WriteReq.apply_of_ne add other, rest, List.drop_succ_cons]

end Abstract

/-! ### The observed bank -/

/-- The registers with the history, latest first: the accepted writes, the operands of the adder, the
responses due, and those delivered. -/
structure Tracked (Addr : Type) (lanes : Nat) (Byte Scale Elem : Type) where
  state : State Addr lanes Byte Scale Elem
  initial : Addr → Row lanes Byte
  accepted : List (Option (WriteReq Addr lanes Byte))
  asked : List (Option (Row lanes Byte × Row lanes Byte))
  expected : List (ReadResp lanes Byte Scale Elem)
  delivered : List (ReadResp lanes Byte Scale Elem)

section Observed

variable [DecidableEq Addr] (add : Row lanes Byte → Row lanes Byte → Row lanes Byte)
  (accLatency : Nat)

def Tracked.row (t : Tracked Addr lanes Byte Scale Elem) (a : Addr) : Row lanes Byte :=
  applyAll add t.accepted t.initial a

def Tracked.next (t : Tracked Addr lanes Byte Scale Elem)
    (inp : Input Addr lanes Byte Scale Elem) : Tracked Addr lanes Byte Scale Elem where
  state := step accLatency t.state inp
  initial := t.initial
  accepted := writeFire accLatency t.state inp :: t.accepted
  asked := adderOps t.state :: t.asked
  expected := t.expected ++
    (readFire accLatency t.state inp).toList.map fun r => ⟨t.row add r.addr, r.tag⟩
  delivered := t.delivered ++ (if inp.respReady then resp t.state else none).toList

/-- The bank between any requesters and an adder that returns a sum `accLatency - 1` cycles later. -/
def machine : Machine (Tracked Addr lanes Byte Scale Elem)
    (Input Addr lanes Byte Scale Elem) where
  init t := (∀ k, t.state.pipelinedWrites k = none) ∧ t.state.readFired = false ∧
    t.state.q = [] ∧ t.state.mem = t.initial ∧ t.accepted = [] ∧ t.asked = [] ∧
    t.expected = [] ∧ t.delivered = []
  legal t inp := ∀ ops ∈ (t.asked[accLatency - 2]?).join, inp.adderSum = add ops.1 ops.2
  step := Tracked.next add accLatency

instance [DecidableEq Byte] (t : Tracked Addr lanes Byte Scale Elem)
    (inp : Input Addr lanes Byte Scale Elem) : Decidable ((machine add accLatency).legal t inp) :=
  inferInstanceAs (Decidable (∀ ops ∈ (t.asked[accLatency - 2]?).join, _ = _))

def outstanding (s : State Addr lanes Byte Scale Elem) : List (ReadResp lanes Byte Scale Elem) :=
  s.q ++ (respEnq s).toList

/-- The registers agree with the history; the operand of an accumulating write is the row as all earlier
writes leave it. -/
structure Inv (t : Tracked Addr lanes Byte Scale Elem) : Prop where
  line : ∀ k < accLatency, t.state.pipelinedWrites k = (t.accepted[k]?).join
  mem : t.state.mem = applyAll add (t.accepted.drop accLatency) t.initial
  operand : ∀ w, t.accepted[0]? = some (some w) → w.acc = true →
    t.state.rdata = applyAll add (t.accepted.drop 1) t.initial w.addr
  asked : ∀ k w, t.accepted[k + 1]? = some (some w) → w.acc = true →
    t.asked[k]? = some (some (applyAll add (t.accepted.drop (k + 2)) t.initial w.addr, w.data))
  responses : t.expected = t.delivered ++ outstanding t.state
  room : t.state.readFired = true → t.state.q = []

end Observed

section Steps

variable [DecidableEq Addr] {add : Row lanes Byte → Row lanes Byte → Row lanes Byte}
  {accLatency : Nat} {t : Tracked Addr lanes Byte Scale Elem}
  {inp : Input Addr lanes Byte Scale Elem}

omit [DecidableEq Addr] in
theorem resp_eq_head (s : State Addr lanes Byte Scale Elem) : resp s = (outstanding s).head? := by
  unfold resp outstanding QueueShape.deq
  cases s.q with
  | nil => cases respEnq s <;> rfl
  | cons x q => rfl

theorem Inv.init (h : (machine add accLatency).init t) :
    Inv add accLatency t := by
  obtain ⟨line, fired, q, mem, accepted, asked, expected, delivered⟩ := h
  constructor
  · intro k _
    simp [line, accepted]
  · rw [mem, accepted, List.drop_nil]
    rfl
  · simp [accepted]
  · simp [accepted]
  · simp [expected, delivered, outstanding, q, respEnq, fired]
  · simp [fired]

theorem Inv.mem_eq_row (inv : Inv add accLatency t) {a : Addr}
    (free : underWay accLatency t.state a = false) : t.state.mem a = t.row add a := by
  rw [inv.mem, Tracked.row]
  refine (applyAll_drop add _ _ _ fun k hk w hw same => ?_).symm
  apply of_decide_eq_false free
  refine ⟨k, hk, w, ?_, same⟩
  rw [inv.line k hk, hw]
  rfl

theorem Inv.nextRdata_eq_row (inv : Inv add accLatency t) (positive : 0 < accLatency) {a : Addr}
    (read : memRead accLatency t.state inp = some a)
    (free : underWay accLatency t.state a = false) :
    nextRdata accLatency t.state inp = t.row add a := by
  have quiet : (oldestPipelinedWrite accLatency t.state).any (fun w => w.addr = a) = false := by
    cases hw : oldestPipelinedWrite accLatency t.state with
    | none => rfl
    | some w =>
      have other := of_decide_eq_false free
      simp only [Option.any_some, decide_eq_false_iff_not]
      exact fun same => other ⟨accLatency - 1, by omega, w, hw, same⟩
  rw [nextRdata, read]
  simp only [quiet, Bool.false_eq_true, if_false]
  exact inv.mem_eq_row free

theorem Inv.nextMem_eq (inv : Inv add accLatency t) (latency : 2 ≤ accLatency)
    (legal : (machine add accLatency).legal t inp) :
    nextMem accLatency t.state inp =
      applyAll add (t.accepted.drop (accLatency - 1)) t.initial := by
  obtain ⟨n, rfl⟩ : ∃ n, accLatency = n + 2 := ⟨accLatency - 2, by omega⟩
  have oldest : oldestPipelinedWrite (n + 2) t.state = (t.accepted[n + 1]?).join :=
    inv.line (n + 1) (by omega)
  have hmem : t.state.mem = applyAll add (t.accepted.drop (n + 2)) t.initial := inv.mem
  show nextMem (n + 2) t.state inp = applyAll add (t.accepted.drop (n + 1)) t.initial
  unfold nextMem
  rcases Nat.lt_or_ge (n + 1) t.accepted.length with long | short
  · obtain ⟨x, hx⟩ : ∃ x, t.accepted[n + 1]? = some x := ⟨_, List.getElem?_eq_getElem long⟩
    have hdrop : t.accepted.drop (n + 1) = x :: t.accepted.drop (n + 2) := by
      rw [List.drop_eq_getElem_cons long]
      rw [List.getElem?_eq_getElem long] at hx
      rw [Option.some.inj hx]
    rw [oldest, hx, hdrop]
    cases x with
    | none => exact hmem
    | some w =>
      simp only [Option.join_some, applyAll_some, WriteReq.apply, ← hmem]
      cases hacc : w.acc with
      | false => rfl
      | true =>
        have sum : inp.adderSum = add (t.state.mem w.addr) w.data := by
          rw [hmem]
          exact legal _ (congrArg Option.join (inv.asked n w hx hacc))
        rw [if_pos rfl, if_pos rfl, sum]
  · rw [oldest, List.getElem?_eq_none short, hmem, List.drop_eq_nil_of_le short,
      List.drop_eq_nil_of_le (by omega)]
    rfl

theorem writeFire_spec {w : WriteReq Addr lanes Byte}
    (fires : writeFire accLatency t.state inp = some w) (acc : w.acc = true) :
    underWay accLatency t.state w.addr = false ∧
      memRead accLatency t.state inp = some w.addr := by
  have free := (Option.filter_eq_some_iff.mp fires).2
  simp only [acc, Bool.true_and, Bool.not_eq_true'] at free
  refine ⟨free, ?_⟩
  rw [memRead, fires, Option.filter_some, if_pos acc]

theorem readFire_spec {r : ReadReq Addr Scale Elem}
    (fires : readFire accLatency t.state inp = some r) :
    inp.read = some r ∧ qWillBeEmpty t.state inp = true ∧
      underWay accLatency t.state r.addr = false ∧
      memRead accLatency t.state inp = some r.addr := by
  obtain ⟨offered, ready⟩ := Option.filter_eq_some_iff.mp fires
  simp only [Bool.and_eq_true, Bool.not_eq_true'] at ready
  obtain ⟨⟨room, noAcc⟩, free⟩ := ready
  refine ⟨offered, room, free, ?_⟩
  -- no accumulating write competes for the read port
  have quiet : (writeFire accLatency t.state inp).filter (fun w => w.acc) = none := by
    rw [Option.filter_eq_none_iff]
    intro w hw
    have offered := (Option.filter_eq_some_iff.mp hw).1
    simpa [Input.accumulates, offered] using noAcc
  rw [memRead, quiet, fires]

theorem Inv.enqFire_eq (inv : Inv add accLatency t) :
    respQueue.enqFire t.state.q (respEnq t.state) inp.respReady = respEnq t.state := by
  unfold QueueShape.enqFire
  cases fired : t.state.readFired with
  | false => simp [respEnq, fired]
  | true => simp [inv.room fired, QueueShape.enqReady, respQueue]

variable (inp) in
theorem Inv.outstanding_eq (inv : Inv add accLatency t) :
    outstanding t.state = (respQueue.deqFire t.state.q (respEnq t.state) inp.respReady).toList ++
      (step accLatency t.state inp).q := by
  have conserved := respQueue.conserved t.state.q (respEnq t.state) inp.respReady
  rw [inv.enqFire_eq] at conserved
  exact conserved

theorem Inv.q_empty (inv : Inv add accLatency t) {r : ReadReq Addr Scale Elem}
    (fires : readFire accLatency t.state inp = some r) : (step accLatency t.state inp).q = [] := by
  have empty := (readFire_spec fires).2.1
  have conserved := congrArg List.length (inv.outstanding_eq inp)
  rw [outstanding, List.length_append, List.length_append] at conserved
  simp only [qWillBeEmpty, inv.enqFire_eq, beq_iff_eq] at empty
  apply List.eq_nil_of_length_eq_zero
  omega

theorem Inv.respEnq_step (inv : Inv add accLatency t) (positive : 0 < accLatency) :
    (respEnq (step accLatency t.state inp)).toList =
      (readFire accLatency t.state inp).toList.map fun r => ⟨t.row add r.addr, r.tag⟩ := by
  cases fires : readFire accLatency t.state inp with
  | none => simp [respEnq, step, fires]
  | some r =>
    obtain ⟨offered, _, free, read⟩ := readFire_spec fires
    have data := inv.nextRdata_eq_row positive read free
    simp [respEnq, step, fires, offered, data]

theorem Inv.next (inv : Inv add accLatency t) (latency : 2 ≤ accLatency)
    (legal : (machine add accLatency).legal t inp) :
    Inv add accLatency (t.next add accLatency inp) := by
  constructor
  · intro k hk
    cases k with
    | zero => rfl
    | succ k => exact inv.line k (by omega)
  · obtain ⟨n, rfl⟩ : ∃ n, accLatency = n + 1 := ⟨accLatency - 1, by omega⟩
    exact inv.nextMem_eq latency legal
  · intro w hw acc
    have fires := Option.some.inj hw
    obtain ⟨free, read⟩ := writeFire_spec fires acc
    exact inv.nextRdata_eq_row (by omega) read free
  · intro k w hw acc
    cases k with
    | zero =>
      have first : t.state.pipelinedWrites 0 = some w := by
        rw [inv.line 0 (by omega)]
        exact congrArg Option.join hw
      have ops : adderOps t.state = some (t.state.rdata, w.data) := by
        simp [adderOps, first, acc]
      show some (adderOps t.state) = _
      rw [ops, inv.operand w hw acc]
      rfl
    | succ k => exact inv.asked k w hw acc
  · show t.expected ++ _ = (t.delivered ++ _) ++ (_ ++ (respEnq (step accLatency t.state inp)).toList)
    rw [inv.responses, inv.respEnq_step (by omega), inv.outstanding_eq inp]
    simp only [List.append_assoc]
    rfl
  · intro fired
    obtain ⟨r, hr⟩ := Option.isSome_iff_exists.mp fired
    exact inv.q_empty hr

theorem inv_of_reachable (latency : 2 ≤ accLatency) (reach : (machine add accLatency).Reachable t) :
    Inv add accLatency t :=
  reach.invariant (fun _ => Inv.init) fun _ _ _ inv legal => inv.next latency legal

/-- Whatever is requested, and however long responses are left waiting: every accepted write is
applied exactly once, in the order of acceptance, when it leaves the line `accLatency` cycles later;
the accepted reads are answered in order, each with its own tag and with the row as all writes
accepted in earlier cycles leave it; and an answer that is outstanding is on offer. -/
theorem accepted_in_order (latency : 2 ≤ accLatency)
    (reach : (machine add accLatency).Reachable t) :
    t.state.mem = applyAll add (t.accepted.drop accLatency) t.initial ∧
      (∀ k < accLatency, t.state.pipelinedWrites k = (t.accepted[k]?).join) ∧
      t.expected = t.delivered ++ outstanding t.state ∧
      resp t.state = (outstanding t.state).head? := by
  have inv := inv_of_reachable latency reach
  exact ⟨inv.mem, inv.line, inv.responses, resp_eq_head t.state⟩

end Steps

/-! ### A run -/

/-- Nothing is requested; `sum` is on the wires from the adder. -/
def quietCycle (sum : Nat) : Input Bool 1 Nat Nat Nat where
  read := none
  write := none
  respReady := true
  adderSum := fun _ => sum
  idleTag := ⟨0, 0, 0, 0, 0, 0, false⟩
  undefined := fun _ => 0

def resetBank : Tracked Bool 1 Nat Nat Nat where
  state := ⟨fun _ => none, fun _ _ => 0, fun _ => 0, ⟨0, 0, 0, 0, 0, 0, false⟩, false, []⟩
  initial := fun _ _ => 0
  accepted := []
  asked := []
  expected := []
  delivered := []

/-- Row 0 is overwritten with 3, then 4 is accumulated onto it, then it is read. -/
def writeThenAccumulate : List (Input Bool 1 Nat Nat Nat) :=
  let accumulate : WriteReq Bool 1 Nat := ⟨false, fun _ => 4, true, fun _ => true⟩
  [{ quietCycle 0 with write := some ⟨false, fun _ => 3, false, fun _ => true⟩ },
    { quietCycle 0 with write := some accumulate }, { quietCycle 0 with write := some accumulate },
    { quietCycle 0 with write := some accumulate }, quietCycle 0, quietCycle 7,
    { quietCycle 0 with read := some ⟨false, ⟨5, 0, 0, 0, 0, 1, true⟩, false⟩ }, quietCycle 0]

theorem read_after_accumulate :
    let M : Machine (Tracked Bool 1 Nat Nat Nat) _ := machine (fun x y i => x i + y i) 2
    let t := M.run resetBank writeThenAccumulate
    M.Reachable t ∧ t.delivered.map (fun r => (r.data 0, r.tag.scale)) = [(7, 5)] ∧
      t.state.mem false 0 = 7 ∧ t.expected = t.delivered ++ outstanding t.state := by
  let M : Machine (Tracked Bool 1 Nat Nat Nat) _ := machine (fun x y i => x i + y i) 2
  have start : M.Reachable resetBank :=
    .init ⟨fun _ => rfl, rfl, rfl, rfl, rfl, rfl, rfl, rfl⟩
  have reach := start.run writeThenAccumulate (by decide)
  exact ⟨reach, by decide, by decide, (accepted_in_order le_rfl reach).2.2.1⟩

end Gemmini.AccumulatorMem
