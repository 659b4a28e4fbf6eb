import Gemmini.Lib.Machine
import Gemmini.Lib.Queue

/-!
# A scratchpad bank in front of an external memory

`ScratchpadBank` with `use_shared_ext_mem`: reads go straight to the memory and their `fromDMA` flags
wait in a queue of four entries; writes wait in another until the memory takes them.  A read may pass a
write that waits, and the flag of a fifth read has no place.
-/

namespace Gemmini.ScratchpadBank

/-- A row is `lanes` words, one for each mask bit. -/
abbrev Row (lanes : ℕ) (Word : Type) := Fin lanes → Word

/-- `ScratchpadReadReq`. -/
structure ReadReq (Addr : Type) where
  addr : Addr
  fromDMA : Bool

/-- `ScratchpadReadResp`. -/
structure ReadResp (lanes : ℕ) (Word : Type) where
  data : Row lanes Word
  fromDMA : Bool
  deriving DecidableEq

/-- What `ScratchpadWriteIO` carries, and the entries of the write queue. -/
structure WriteReq (Addr : Type) (lanes : ℕ) (Word : Type) where
  addr : Addr
  mask : Fin lanes → Bool
  data : Row lanes Word

variable {Addr Word : Type} {lanes : ℕ}

/-- The three queues and the memory behind them: its contents, and its answers to the reads it has
accepted. -/
structure State (Addr : Type) (lanes : ℕ) (Word : Type) where
  q : List (ReadResp lanes Word)
  dmaQ : List Bool
  wq : List (WriteReq Addr lanes Word)
  mem : Addr → Row lanes Word
  answers : List (Row lanes Word)

/-- The inputs of one cycle.  `idleFromDMA` is on the wire while no read is offered.  The memory stalls
and answers when it likes. -/
structure Input (Addr : Type) (lanes : ℕ) (Word : Type) where
  read : Option (ReadReq Addr)
  write : Option (WriteReq Addr lanes Word)
  respReady : Bool
  idleFromDMA : Bool
  memReadReady : Bool
  memWriteReady : Bool
  memAnswers : Bool

/-- `q`: one entry, `pipe` and `flow`. -/
def respQueue : QueueShape := ⟨1, true, true, Nat.one_pos⟩

theorem four_entries : 0 < 4 := by decide

/-- `dma_q`: four entries, `flow`. -/
def dmaQueue : QueueShape := ⟨4, false, true, four_entries⟩

/-- `wq`: four entries, `pipe` and `flow`. -/
def writeQueue : QueueShape := ⟨4, true, true, four_entries⟩

section Wires

variable (wide : Bool) (s : State Addr lanes Word) (inp : Input Addr lanes Word)

/-- `dma_q.io.deq.bits`: while the queue is empty, the wire at its other end. -/
def responseFlag : Bool :=
  s.dmaQ.head?.getD ((inp.read.map (·.fromDMA)).getD inp.idleFromDMA)

/-- `ext_mem.read_resp`. -/
def memResp : Option (Row lanes Word) := if inp.memAnswers then s.answers.head? else none

/-- `q.io.enq`. -/
def respEnq : Option (ReadResp lanes Word) :=
  (memResp s inp).map fun data => ⟨data, responseFlag s inp⟩

/-- `q.io.enq.fire`, with what enters. -/
def respEnqFire : Option (ReadResp lanes Word) :=
  respQueue.enqFire s.q (respEnq s inp) inp.respReady

/-- `io.read.resp.fire`, with what is delivered. -/
def respFire : Option (ReadResp lanes Word) :=
  respQueue.deqFire s.q (respEnq s inp) inp.respReady

def qWillBeEmpty : Bool :=
  s.q.length + (respEnqFire s inp).toList.length - (respFire s inp).toList.length == 0

/-- The read accepted in this cycle, `ren`. -/
def readFire : Option (ReadReq Addr) :=
  inp.read.filter fun _ => qWillBeEmpty s inp && inp.memReadReady

/-- `dma_q.io.enq`. -/
def dmaEnq : Option Bool := (readFire s inp).map (·.fromDMA)

/-- `wq.io.enq.bits`: with `aligned_to >= w` there is one mask bit, and it is taken as set. -/
def queued (w : WriteReq Addr lanes Word) : WriteReq Addr lanes Word :=
  { w with mask := if wide then fun _ => true else w.mask }

/-- The write accepted in this cycle, `io.write.fire`. -/
def writeFire : Option (WriteReq Addr lanes Word) :=
  writeQueue.enqFire s.wq (inp.write.map (queued wide)) inp.memWriteReady

/-- The write that the memory accepts in this cycle, `ext_mem.write_req.fire`. -/
def memWrite : Option (WriteReq Addr lanes Word) :=
  writeQueue.deqFire s.wq (inp.write.map (queued wide)) inp.memWriteReady

def WriteReq.apply [DecidableEq Addr] (w : WriteReq Addr lanes Word) (m : Addr → Row lanes Word) :
    Addr → Row lanes Word :=
  Function.update m w.addr fun i => if w.mask i then w.data i else m w.addr i

def applyAll [DecidableEq Addr] (ws : List (WriteReq Addr lanes Word))
    (m : Addr → Row lanes Word) : Addr → Row lanes Word :=
  ws.foldl (fun m w => w.apply m) m

/-- The queues and the memory after the clock edge.  A read sees the writes accepted in earlier cycles. -/
def step [DecidableEq Addr] : State Addr lanes Word where
  q := respQueue.next s.q (respEnq s inp) inp.respReady
  dmaQ := dmaQueue.next s.dmaQ (dmaEnq s inp) (respEnqFire s inp).isSome
  wq := writeQueue.next s.wq (inp.write.map (queued wide)) inp.memWriteReady
  mem := applyAll (memWrite wide s inp).toList s.mem
  answers := s.answers.drop (respEnqFire s inp).toList.length ++
    (readFire s inp).toList.map fun r => s.mem r.addr

end Wires

/-! ### The observed bank -/

/-- The bank with the history: the memory it stands for, written when a write is accepted; the responses
due, and those delivered. -/
structure Tracked (Addr : Type) (lanes : ℕ) (Word : Type) where
  state : State Addr lanes Word
  contents : Addr → Row lanes Word
  expected : List (ReadResp lanes Word)
  delivered : List (ReadResp lanes Word)

section Observed

variable [DecidableEq Addr] (wide : Bool)

def Tracked.next (t : Tracked Addr lanes Word) (inp : Input Addr lanes Word) :
    Tracked Addr lanes Word where
  state := step wide t.state inp
  contents := applyAll (writeFire wide t.state inp).toList t.contents
  expected := t.expected ++
    (readFire t.state inp).toList.map fun r => ⟨t.contents r.addr, r.fromDMA⟩
  delivered := t.delivered ++ (respFire t.state inp).toList

def bank : Machine (Tracked Addr lanes Word) (Input Addr lanes Word) where
  init t := t.state.q = [] ∧ t.state.dmaQ = [] ∧ t.state.wq = [] ∧ t.state.answers = [] ∧
    t.state.mem = t.contents ∧ t.expected = [] ∧ t.delivered = []
  legal _ _ := True
  step := Tracked.next wide

instance (t : Tracked Addr lanes Word) (inp : Input Addr lanes Word) :
    Decidable ((bank wide).legal t inp) := inferInstanceAs (Decidable True)

/-- A read is accepted only while no write to its row waits, and there is room for its flag. -/
def Unhindered (t : Tracked Addr lanes Word) (inp : Input Addr lanes Word) : Prop :=
  ∀ r ∈ readFire t.state inp,
    (∀ w ∈ t.state.wq, w.addr ≠ r.addr) ∧ t.state.dmaQ.length < dmaQueue.entries

instance (t : Tracked Addr lanes Word) (inp : Input Addr lanes Word) :
    Decidable (Unhindered t inp) :=
  inferInstanceAs (Decidable (∀ r ∈ readFire t.state inp, _))

def outstanding (s : State Addr lanes Word) : List (ReadResp lanes Word) :=
  s.q ++ s.answers.zipWith ReadResp.mk s.dmaQ

/-- Every answer has its flag, the waiting writes are all that the memory lacks, and the right responses
are under way. -/
structure Inv (t : Tracked Addr lanes Word) : Prop where
  flags : t.state.dmaQ.length = t.state.answers.length
  writes : t.contents = applyAll t.state.wq t.state.mem
  responses : t.expected = t.delivered ++ outstanding t.state

end Observed

section Steps

variable [DecidableEq Addr] {wide : Bool} {t : Tracked Addr lanes Word}
  {inp : Input Addr lanes Word}

theorem applyAll_append (ws vs : List (WriteReq Addr lanes Word)) (m : Addr → Row lanes Word) :
    applyAll (ws ++ vs) m = applyAll vs (applyAll ws m) :=
  List.foldl_append

theorem applyAll_of_ne {a : Addr} {ws : List (WriteReq Addr lanes Word)}
    (others : ∀ w ∈ ws, w.addr ≠ a) (m : Addr → Row lanes Word) : applyAll ws m a = m a := by
  induction ws generalizing m with
  | nil => rfl
  | cons w ws ih =>
    have other : w.addr ≠ a := others w List.mem_cons_self
    have rest : applyAll ws (w.apply m) a = w.apply m a :=
      ih (fun v hv => others v (List.mem_cons_of_mem w hv)) _
    show applyAll ws (w.apply m) a = m a
    rw [rest, WriteReq.apply, Function.update_of_ne other.symm]

omit [DecidableEq Addr] in
theorem respEnqFire_eq_some {x : ReadResp lanes Word}
    (fires : respEnqFire t.state inp = some x) :
    ∃ answers, t.state.answers = x.data :: answers ∧ x.fromDMA = responseFlag t.state inp := by
  unfold respEnqFire QueueShape.enqFire respEnq memResp at fires
  split_ifs at fires with ready answers
  · obtain ⟨data, first, rfl⟩ := Option.map_eq_some_iff.mp fires
    exact ⟨_, List.eq_cons_of_mem_head? first, rfl⟩
  · simp at fires

omit [DecidableEq Addr] in
theorem dmaQueue_next {flags : List Bool} {enq : Option Bool} {taken : Bool}
    (room : enq.isSome → flags.length < dmaQueue.entries) (some_taken : taken → flags ≠ []) :
    dmaQueue.next flags enq taken = flags.drop taken.toNat ++ enq.toList := by
  have entered : dmaQueue.enqFire flags enq taken = enq := by
    cases enq with
    | none => simp [QueueShape.enqFire]
    | some x => simp [QueueShape.enqFire, QueueShape.enqReady, room rfl]
  unfold QueueShape.next
  rw [entered]
  cases taken with
  | false => simp [QueueShape.deqFire]
  | true =>
    cases flags with
    | nil => exact absurd rfl (some_taken rfl)
    | cons flag flags => simp [QueueShape.deqFire, QueueShape.deq]

theorem Inv.init (h : (bank wide).init t) : Inv t := by
  obtain ⟨q, dmaQ, wq, answers, mem, expected, delivered⟩ := h
  constructor
  · rw [dmaQ, answers]
    rfl
  · rw [wq, mem]
    rfl
  · simp [expected, delivered, outstanding, q, answers]

theorem Inv.answers_split (inv : Inv t) (inp : Input Addr lanes Word) :
    (respEnqFire t.state inp).isSome.toNat = (respEnqFire t.state inp).toList.length ∧
      ((respEnqFire t.state inp).isSome → t.state.dmaQ ≠ []) ∧
      t.state.answers.zipWith ReadResp.mk t.state.dmaQ =
        (respEnqFire t.state inp).toList ++
          (t.state.answers.drop (respEnqFire t.state inp).toList.length).zipWith ReadResp.mk
            (t.state.dmaQ.drop (respEnqFire t.state inp).toList.length) := by
  cases fires : respEnqFire t.state inp with
  | none => simp
  | some x =>
    obtain ⟨answers, first, flag⟩ := respEnqFire_eq_some fires
    obtain ⟨b, flags, flagged⟩ : ∃ b flags, t.state.dmaQ = b :: flags := by
      apply List.exists_cons_of_ne_nil
      intro none
      have lengths := inv.flags
      rw [none, first] at lengths
      simp at lengths
    have same : x.fromDMA = b := by
      rw [flag, responseFlag, flagged]
      rfl
    refine ⟨rfl, fun _ => by simp [flagged], ?_⟩
    rw [first, flagged, ← same]
    rfl

theorem Inv.mem_eq_contents (inv : Inv t) {a : Addr} (free : ∀ w ∈ t.state.wq, w.addr ≠ a) :
    t.state.mem a = t.contents a := by
  rw [inv.writes, applyAll_of_ne free]

theorem Inv.next (inv : Inv t) (ok : Unhindered t inp) : Inv (t.next wide inp) := by
  obtain ⟨count, taken, split⟩ := inv.answers_split inp
  have flags : (step wide t.state inp).dmaQ =
      t.state.dmaQ.drop (respEnqFire t.state inp).toList.length ++
        (readFire t.state inp).toList.map (·.fromDMA) := by
    have room : (dmaEnq t.state inp).isSome → t.state.dmaQ.length < dmaQueue.entries := by
      intro accepted
      obtain ⟨r, hr⟩ := Option.isSome_iff_exists.mp (Option.isSome_map.symm.trans accepted)
      exact (ok r hr).2
    show dmaQueue.next t.state.dmaQ (dmaEnq t.state inp) _ = _
    rw [dmaQueue_next room taken, count, dmaEnq, Option.toList_map]
  have data : ((readFire t.state inp).toList.map fun r => t.state.mem r.addr) =
      (readFire t.state inp).toList.map fun r => t.contents r.addr := by
    apply List.map_congr_left
    intro r hr
    exact inv.mem_eq_contents (ok r (Option.mem_toList.mp hr)).1
  constructor
  · show (step wide t.state inp).dmaQ.length = (step wide t.state inp).answers.length
    rw [flags]
    simp [step, inv.flags]
  · have conserved := writeQueue.conserved t.state.wq (inp.write.map (queued wide))
      inp.memWriteReady
    show applyAll (writeFire wide t.state inp).toList t.contents =
      applyAll (step wide t.state inp).wq (applyAll (memWrite wide t.state inp).toList t.state.mem)
    rw [inv.writes, ← applyAll_append, ← applyAll_append]
    exact congrArg (applyAll · t.state.mem) conserved
  · have conserved : t.state.q ++ (respEnqFire t.state inp).toList =
        (respFire t.state inp).toList ++ (step wide t.state inp).q :=
      respQueue.conserved t.state.q (respEnq t.state inp) inp.respReady
    have lengths := congrArg (fun n => n - (respEnqFire t.state inp).toList.length) inv.flags
    have joined : (step wide t.state inp).answers.zipWith ReadResp.mk (step wide t.state inp).dmaQ =
        (t.state.answers.drop (respEnqFire t.state inp).toList.length).zipWith ReadResp.mk
          (t.state.dmaQ.drop (respEnqFire t.state inp).toList.length) ++
        (readFire t.state inp).toList.map fun r => ⟨t.contents r.addr, r.fromDMA⟩ := by
      rw [flags]
      show (_ ++ List.map (fun r : ReadReq Addr => t.state.mem r.addr) _).zipWith ReadResp.mk _ = _
      rw [data, List.zipWith_append (by simpa using lengths.symm), List.zipWith_map,
        List.zipWith_self]
    show t.expected ++ _ = (t.delivered ++ (respFire t.state inp).toList) ++
      ((step wide t.state inp).q ++
        (step wide t.state inp).answers.zipWith ReadResp.mk (step wide t.state inp).dmaQ)
    rw [joined, inv.responses, outstanding, split]
    simp only [List.append_assoc]
    rw [← List.append_assoc t.state.q, conserved]
    simp only [List.append_assoc]

theorem inv_of_reachable (reach : ((bank wide).restrict Unhindered).Reachable t) : Inv t := by
  refine reach.invariant (P := Inv) ?_ ?_
  · intro s (initial : (bank wide).init s)
    exact Inv.init initial
  · exact fun _ _ _ inv legal => inv.next legal.2

theorem Inv.respFire_eq_head (inv : Inv t) (answers : inp.memAnswers = true)
    (taken : inp.respReady = true) : respFire t.state inp = (outstanding t.state).head? := by
  unfold respFire QueueShape.deqFire QueueShape.deq outstanding
  rw [if_pos taken]
  cases hq : t.state.q with
  | cons x q => rfl
  | nil =>
    have lengths := inv.flags
    show respEnq t.state inp = _
    rw [respEnq, memResp, if_pos answers, responseFlag]
    cases ha : t.state.answers with
    | nil => rfl
    | cons row rows =>
      cases hd : t.state.dmaQ with
      | nil => simp [ha, hd] at lengths
      | cons flag flags => rfl

/-- As long as no read is accepted while a write to its row waits or four flags do, every accepted
read gets exactly one response: those delivered are, in order, the first of those due, each with its
own `fromDMA` flag and the row as all writes accepted in earlier cycles leave it; the rest are in the
queue or with the memory, and one leaves in every cycle in which the memory answers and the
requester takes it. -/
theorem reads_answered_in_order (reach : ((bank wide).restrict Unhindered).Reachable t) :
    t.delivered <+: t.expected ∧
      t.expected.length = t.delivered.length + t.state.q.length + t.state.answers.length ∧
      ∀ inp : Input Addr lanes Word, inp.memAnswers = true → inp.respReady = true →
        (t.next wide inp).delivered = t.expected.take (t.delivered.length + 1) := by
  have inv := inv_of_reachable reach
  refine ⟨⟨_, inv.responses.symm⟩, ?_, ?_⟩
  · have lengths := congrArg List.length inv.responses
    simp only [outstanding, List.length_append, List.length_zipWith, inv.flags, min_self] at lengths
    omega
  · intro inp answers taken
    show t.delivered ++ (respFire t.state inp).toList = _
    rw [inv.respFire_eq_head answers taken, inv.responses, List.take_length_add_append,
      List.take_one]

end Steps

/-! ### Two runs -/

def idleCycle : Input Bool 1 ℕ where
  read := none
  write := none
  respReady := true
  idleFromDMA := false
  memReadReady := true
  memWriteReady := true
  memAnswers := false

def resetBank : Tracked Bool 1 ℕ where
  state := ⟨[], [], [], fun _ _ => 0, []⟩
  contents := fun _ _ => 0
  expected := []
  delivered := []

theorem resetBank_init : (bank false).init resetBank := ⟨rfl, rfl, rfl, rfl, rfl, rfl, rfl⟩

def writeCycle (taken : Bool) : Input Bool 1 ℕ :=
  { idleCycle with
    write := some ⟨false, fun _ => true, fun _ => 7⟩
    memWriteReady := taken }

def readCycle (fromDMA : Bool) : Input Bool 1 ℕ :=
  { idleCycle with
    read := some ⟨false, fromDMA⟩
    memWriteReady := false }

def answerCycle : Input Bool 1 ℕ := { idleCycle with memAnswers := true }

theorem read_after_write_answered :
    let cycles := [writeCycle true, readCycle true, answerCycle]
    let t := (bank false).run resetBank cycles
    ((bank false).restrict Unhindered).LegalRun resetBank cycles ∧
      t.delivered.map (fun r => (r.data 0, r.fromDMA)) = [(7, true)] ∧ t.delivered <+: t.expected := by
  have start : ((bank false).restrict Unhindered).Reachable resetBank := .init resetBank_init
  have legal : ((bank false).restrict Unhindered).LegalRun resetBank
      [writeCycle true, readCycle true, answerCycle] := by decide
  have reach := start.run _ legal
  rw [Machine.restrict_run] at reach
  exact ⟨legal, by decide, (reads_answered_in_order reach).1⟩

def overtakingRead : List (Input Bool 1 ℕ) := [writeCycle false, readCycle false, answerCycle]

def fiveReads : List (Input Bool 1 ℕ) :=
  List.replicate 4 (readCycle false) ++ [readCycle true] ++ List.replicate 5 answerCycle

/-- A read that passes a write gets the row as it was before; the flag of a fifth read is lost. -/
theorem read_answered_wrongly :
    let t := (bank false).run resetBank overtakingRead
    let u := (bank false).run resetBank fiveReads
    (bank false).Reachable t ∧ t.expected.map (fun r => r.data 0) = [7] ∧
      t.delivered.map (fun r => r.data 0) = [0] ∧
      (bank false).Reachable u ∧
      u.expected.map (fun r => r.fromDMA) = [false, false, false, false, true] ∧
      u.delivered.map (fun r => r.fromDMA) = [false, false, false, false, false] := by
  have start : (bank false).Reachable resetBank := .init resetBank_init
  refine ⟨start.run overtakingRead (by decide), by decide, by decide,
    start.run fiveReads (by decide), by decide, by decide⟩

end Gemmini.ScratchpadBank
