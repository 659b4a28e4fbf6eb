import Gemmini.Execute.Recorded

/-!
# The preload unroller

`TransposePreloadUnroller.scala`: with a transposed D in the weight-stationary dataflow a preload and a
flipping compute become the preload without its destination, a staying compute, the preload without its
D, and the compute itself.  The garbage addresses meant for the staying compute are connected to the
register numbers of its instruction, so it reads A and B, and the compute reads them again.
-/

namespace Gemmini.Execute

open ReservationStation (Cmd UDValid)
open Mesh (Support)

/-- A `GemminiCmd`; `instRs1` and `instRs2` are the register numbers `cmd.inst.rs1` and
`cmd.inst.rs2`. -/
structure GemminiCmd where
  cmd : Cmd
  instRs1 : BitVec 5
  instRs2 : BitVec 5
  robId : UDValid Nat
  deriving DecidableEq, Repr

namespace Unroller

/-- `State`. -/
inductive Phase
  | idle
  | firstCompute
  | secondPreload
  deriving DecidableEq, Repr

/-- `state.next`, which goes from the last state to the first. -/
def Phase.next : Phase → Phase
  | .idle => .firstCompute
  | .firstCompute => .secondPreload
  | .secondPreload => .idle

def Phase.sent : Phase → Nat
  | .idle => 0
  | .firstCompute => 1
  | .secondPreload => 2

def firstPreloadCmd (c : GemminiCmd) : GemminiCmd :=
  { c with cmd.rs2 := withGarbageAddr c.cmd.rs2, robId.valid := false }

/-- `first_compute_cmd`: the five bits of a register number are the low ones of the garbage
address. -/
def firstComputeCmd (c : GemminiCmd) : GemminiCmd :=
  { c with
    instRs1 := (withGarbageAddr c.cmd.rs1).setWidth 5
    instRs2 := (withGarbageAddr c.cmd.rs2).setWidth 5
    cmd.funct := .computeAndStay
    robId.valid := false }

def secondPreloadCmd (c : GemminiCmd) : GemminiCmd :=
  { c with cmd.rs1 := withGarbageAddr c.cmd.rs1 }

/-- The registers, the two-entry queue in front of them, and what has gone in and out. -/
structure State where
  state : Phase
  bTransposedAndWs : Bool
  queue : List GemminiCmd
  received : List GemminiCmd
  emitted : List GemminiCmd
  deriving DecidableEq, Repr

structure Input where
  cmd : Option GemminiCmd
  outReady : Bool

namespace State

variable (df : Support) (s : State)

def firstPreload : Bool :=
  s.queue[0]?.any (·.cmd.funct = .preload) && s.state = .idle

def unrollPreload : Bool :=
  s.bTransposedAndWs && s.queue[1]?.any (·.cmd.funct = .computeAndFlip)

/-- `io.out.valid`. -/
def outValid : Bool :=
  if s.firstPreload then !s.bTransposedAndWs || s.queue[1]?.isSome
  else s.state = .secondPreload || s.queue[0]?.isSome

/-- `io.out.bits`. -/
def outBits : Option GemminiCmd :=
  if s.firstPreload && s.unrollPreload then s.queue[0]?.map firstPreloadCmd
  else match s.state with
    | .firstCompute => s.queue[1]?.map firstComputeCmd
    | .secondPreload => s.queue[0]?.map secondPreloadCmd
    | .idle => s.queue[0]?

end State

/-- `b_transposed_and_ws` after a command. -/
def transposed (df : Support) (t : Bool) (c : GemminiCmd) : Bool :=
  if IsConfigEx c.cmd ∧ bit c.cmd.rs1 7 = false then
    (df = .ws || bit c.cmd.rs1 2) && bit c.cmd.rs1 9
  else t

namespace State

variable (df : Support) (s : State)

def isConfig : Bool := s.queue[0]?.any fun c => IsConfigEx c.cmd

def fire : State :=
  { state :=
      if s.isConfig then s.state
      else if s.firstPreload && s.unrollPreload then .firstCompute
      else if s.state = .idle then .idle
      else s.state.next
    bTransposedAndWs := s.queue[0]?.elim s.bTransposedAndWs (transposed df s.bTransposedAndWs)
    queue :=
      if !(s.firstPreload && s.unrollPreload) && s.state ≠ .firstCompute then s.queue.drop 1
      else s.queue
    received := s.received
    emitted := s.emitted ++ s.outBits.toList }

def enq (c : GemminiCmd) : State :=
  { s with queue := s.queue ++ [c], received := s.received ++ [c] }

/-- The state after the clock edge; the queue has room if it had room before it gave a command. -/
def next (inp : Input) : State :=
  let taken := if s.outValid && inp.outReady then s.fire df else s
  match inp.cmd with
  | some c => if s.queue.length < 2 then taken.enq c else taken
  | none => taken

end State

/-- The unroller, whose `b_transposed_and_ws` has no reset value. -/
def unroller (df : Support) (t : Bool) : Machine State Input where
  init s := s = ⟨.idle, t, [], [], []⟩
  legal _ _ := True
  step := State.next df

/-! ## The stream -/

def unrolls (t : Bool) (c d : GemminiCmd) : Bool :=
  t && c.cmd.funct = .preload && d.cmd.funct = .computeAndFlip

def pieces (t : Bool) (c : GemminiCmd) : Option GemminiCmd → List GemminiCmd
  | some d =>
    if unrolls t c d then [firstPreloadCmd c, firstComputeCmd d, secondPreloadCmd c] else [c]
  | none => [c]

def stream (df : Support) : Bool → List GemminiCmd → List GemminiCmd
  | _, [] => []
  | t, c :: cs => pieces t c cs.head? ++ stream df (transposed df t c) cs

def unrolledComputes (df : Support) : Bool → List GemminiCmd → List GemminiCmd
  | _, [] => []
  | t, c :: cs => (cs.head?.filter (unrolls t c)).toList ++
      unrolledComputes df (transposed df t c) cs

variable {df : Support} {t : Bool} {s : State} {c d : GemminiCmd}

theorem pieces_of_unrolls (pair : unrolls t c d = true) :
    pieces t c (some d) = [firstPreloadCmd c, firstComputeCmd d, secondPreloadCmd c] :=
  if_pos pair

theorem pieces_of_pass {n : Option GemminiCmd} (pass : ∀ d ∈ n, unrolls t c d = false) :
    pieces t c n = [c] := by
  cases n with
  | none => rfl
  | some d => simp [pieces, pass d rfl]

theorem transposed_of_preload (preload : c.cmd.funct = .preload) : transposed df t c = t := by
  rw [transposed, if_neg]
  rintro ⟨config, -⟩
  rw [config.1] at preload
  cases preload

/-- Past the head of the queue there is the compute of a pair begun with, and what is sent and to be
sent make up the stream. -/
structure Inv (df : Support) (t : Bool) (s : State) : Prop where
  held : s.state ≠ .idle →
    ∃ c d cs, s.queue = c :: d :: cs ∧ unrolls s.bTransposedAndWs c d = true
  stream : ∀ more, s.emitted ++
    (stream df s.bTransposedAndWs (s.queue ++ more)).drop s.state.sent =
      stream df t (s.received ++ more)

theorem unrolls_preload (pair : unrolls t c d = true) : c.cmd.funct = .preload := by
  simp only [unrolls, Bool.and_eq_true, decide_eq_true_eq] at pair
  exact pair.1.2

theorem not_config_of_preload (preload : c.cmd.funct = .preload) : ¬ IsConfigEx c.cmd := by
  rintro ⟨config, -⟩
  rw [config] at preload
  cases preload

theorem stream_of_unrolls (pair : unrolls t c d = true) (cs : List GemminiCmd) :
    stream df t (c :: d :: cs) =
      firstPreloadCmd c :: firstComputeCmd d :: secondPreloadCmd c :: stream df t (d :: cs) := by
  rw [stream, List.head?_cons, pieces_of_unrolls pair, transposed_of_preload (unrolls_preload pair)]
  rfl

theorem stream_of_pass {cs : List GemminiCmd} (pass : ∀ d ∈ cs.head?, unrolls t c d = false) :
    stream df t (c :: cs) = c :: stream df (transposed df t c) cs := by
  rw [stream, pieces_of_pass pass]
  rfl

theorem pass_of_valid {cs : List GemminiCmd} (queue : s.queue = c :: cs) (idle : s.state = .idle)
    (valid : s.outValid = true) (single : (s.firstPreload && s.unrollPreload) = false)
    (more : List GemminiCmd) :
    ∀ d ∈ (cs ++ more).head?, unrolls s.bTransposedAndWs c d = false := by
  intro d first
  cases cs with
  | nil =>
    -- nothing is known of the next command, so a preload of a transposed D would wait
    simp only [State.outValid, State.firstPreload, queue, idle] at valid
    simp only [unrolls]
    by_cases preload : c.cmd.funct = .preload <;> simp_all
  | cons e cs =>
    obtain rfl : e = d := by simpa using first
    simp only [State.firstPreload, State.unrollPreload, queue, idle] at single
    simp only [unrolls]
    simp at single ⊢
    grind

/-! ## What an output does -/

theorem fire_pass {cs : List GemminiCmd} (queue : s.queue = c :: cs) (idle : s.state = .idle)
    (single : (s.firstPreload && s.unrollPreload) = false) :
    s.fire df = { s with
      bTransposedAndWs := transposed df s.bTransposedAndWs c
      queue := cs
      emitted := s.emitted ++ [c] } := by
  simp [State.fire, State.outBits, single, idle, queue]

section Pair

variable {cs : List GemminiCmd} (queue : s.queue = c :: d :: cs)
  (pair : unrolls s.bTransposedAndWs c d = true)
include queue pair

theorem unrollPreload_of_unrolls : s.unrollPreload = true := by
  simp only [unrolls, Bool.and_eq_true, decide_eq_true_eq] at pair
  simp [State.unrollPreload, queue, pair.1.1, pair.2]

theorem fire_first_preload (idle : s.state = .idle) :
    s.fire df = { s with
      state := .firstCompute
      emitted := s.emitted ++ [firstPreloadCmd c] } := by
  have preload := unrolls_preload pair
  have both : (s.firstPreload && s.unrollPreload) = true := by
    simp [unrollPreload_of_unrolls queue pair, State.firstPreload, queue, preload, idle]
  simp [State.fire, State.outBits, State.isConfig, both, queue, transposed_of_preload preload,
    not_config_of_preload preload]

theorem fire_first_compute (phase : s.state = .firstCompute) :
    s.fire df = { s with
      state := .secondPreload
      emitted := s.emitted ++ [firstComputeCmd d] } := by
  have preload := unrolls_preload pair
  simp [State.fire, State.outBits, State.isConfig, State.firstPreload, phase, queue, Phase.next,
    transposed_of_preload preload, not_config_of_preload preload]

theorem fire_second_preload (phase : s.state = .secondPreload) :
    s.fire df = { s with
      state := .idle
      queue := d :: cs
      emitted := s.emitted ++ [secondPreloadCmd c] } := by
  have preload := unrolls_preload pair
  simp [State.fire, State.outBits, State.isConfig, State.firstPreload, phase, queue, Phase.next,
    transposed_of_preload preload, not_config_of_preload preload]

theorem stream_queue (more : List GemminiCmd) :
    stream df s.bTransposedAndWs (s.queue ++ more) =
      firstPreloadCmd c :: firstComputeCmd d :: secondPreloadCmd c ::
        stream df s.bTransposedAndWs (d :: cs ++ more) := by
  rw [queue]
  apply stream_of_unrolls pair

end Pair

theorem unrolls_of_both (both : (s.firstPreload && s.unrollPreload) = true) :
    ∃ c d cs, s.queue = c :: d :: cs ∧ unrolls s.bTransposedAndWs c d = true ∧ s.state = .idle := by
  simp only [State.firstPreload, State.unrollPreload, Bool.and_eq_true, decide_eq_true_eq] at both
  obtain ⟨⟨preload, idle⟩, transposed, flip⟩ := both
  rcases queue : s.queue with - | ⟨c, - | ⟨d, cs⟩⟩
  · simp [queue] at preload
  · simp [queue] at flip
  · have preload : c.cmd.funct = .preload := by simpa [queue] using preload
    have flip : d.cmd.funct = .computeAndFlip := by simpa [queue] using flip
    exact ⟨c, d, cs, rfl, by simp [unrolls, transposed, preload, flip], idle⟩

theorem Inv.fire (inv : Inv df t s) (valid : s.outValid = true) : Inv df t (s.fire df) := by
  cases phase : s.state with
  | idle =>
    by_cases both : (s.firstPreload && s.unrollPreload) = true
    · obtain ⟨c, d, cs, queue, pair, -⟩ := unrolls_of_both both
      rw [fire_first_preload queue pair phase]
      refine ⟨fun _ => ⟨c, d, cs, queue, pair⟩, fun more => ?_⟩
      simpa [Phase.sent, stream_queue queue pair, phase] using inv.stream more
    · have single := Bool.eq_false_iff.2 both
      cases queue : s.queue with
      | nil => simp [State.outValid, State.firstPreload, queue, phase] at valid
      | cons c cs =>
        rw [fire_pass queue phase single]
        refine ⟨fun busy => absurd phase busy, fun more => ?_⟩
        have sent := inv.stream more
        rw [queue, List.cons_append,
          stream_of_pass (pass_of_valid queue phase valid single more), phase] at sent
        simpa [Phase.sent, phase] using sent
  | firstCompute =>
    obtain ⟨c, d, cs, queue, pair⟩ := inv.held (by simp [phase])
    rw [fire_first_compute queue pair phase]
    refine ⟨fun _ => ⟨c, d, cs, queue, pair⟩, fun more => ?_⟩
    simpa [Phase.sent, stream_queue queue pair, phase] using inv.stream more
  | secondPreload =>
    obtain ⟨c, d, cs, queue, pair⟩ := inv.held (by simp [phase])
    rw [fire_second_preload queue pair phase]
    refine ⟨fun busy => absurd rfl busy, fun more => ?_⟩
    simpa [Phase.sent, stream_queue queue pair, phase] using inv.stream more

theorem Inv.enq (inv : Inv df t s) (x : GemminiCmd) : Inv df t (s.enq x) := by
  refine ⟨fun busy => ?_, fun more => ?_⟩
  · obtain ⟨c, d, cs, queue, pair⟩ := inv.held busy
    exact ⟨c, d, cs ++ [x], by simp [State.enq, queue], pair⟩
  · have sent := inv.stream (x :: more)
    simpa [State.enq] using sent

theorem Inv.next (inv : Inv df t s) (inp : Input) : Inv df t (s.next df inp) := by
  have taken : Inv df t (if s.outValid && inp.outReady then s.fire df else s) := by
    split_ifs with fires
    · exact inv.fire (Bool.and_eq_true_iff.1 fires).1
    · exact inv
  rw [State.next]
  cases inp.cmd with
  | none => exact taken
  | some x =>
    dsimp only
    by_cases room : s.queue.length < 2
    · rw [if_pos room]
      exact taken.enq x
    · rw [if_neg room]
      exact taken

theorem inv_of_reachable (reach : (unroller df t).Reachable s) : Inv df t s := by
  apply reach.invariant
  · rintro s rfl
    exact ⟨fun busy => absurd rfl busy, fun _ => rfl⟩
  · intro s inp _ inv _
    exact inv.next inp

/-! ## Ids and operands -/

/-- What is left to send for the commands in the queue, were none to follow. -/
def State.pending (df : Support) (s : State) : List GemminiCmd :=
  (stream df s.bTransposedAndWs s.queue).drop s.state.sent

theorem emitted_pending (reach : (unroller df t).Reachable s) :
    s.emitted ++ s.pending df = stream df t s.received := by
  simpa [State.pending] using (inv_of_reachable reach).stream []

def ids (cs : List GemminiCmd) : List Nat :=
  (cs.filter (·.robId.valid)).map (·.robId.bits)

theorem ids_append (cs ds : List GemminiCmd) : ids (cs ++ ds) = ids cs ++ ids ds := by
  simp [ids]

theorem ids_pieces (n : Option GemminiCmd) : ids (pieces t c n) = ids [c] := by
  cases n with
  | none => rfl
  | some d =>
    rw [pieces]
    split_ifs
    · simp [ids, firstPreloadCmd, firstComputeCmd, secondPreloadCmd, List.filter_cons]
      split_ifs <;> rfl
    · rfl

theorem ids_stream (cs : List GemminiCmd) : ids (stream df t cs) = ids cs := by
  induction cs generalizing t with
  | nil => rfl
  | cons c cs ih =>
    rw [stream, ids_append, ids_pieces, ih, ← ids_append]
    rfl

theorem ids_pending (inv : Inv df t s) : ids (s.pending df) = ids s.queue := by
  have same : ids (stream df s.bTransposedAndWs s.queue) = ids s.queue := ids_stream s.queue
  rw [← same]
  by_cases idle : s.state = .idle
  · rw [State.pending, idle]
    rfl
  · obtain ⟨c, d, cs, queue, pair⟩ := inv.held idle
    rw [State.pending, queue, stream_of_unrolls pair]
    cases phase : s.state with
    | idle => exact absurd phase idle
    | firstCompute => rfl
    | secondPreload => rfl

def GarbageOperands (g : Geometry) (c : GemminiCmd) : Prop :=
  (LocalAddr.ofWord g c.cmd.rs1).isGarbage g = true ∧
    (LocalAddr.ofWord g c.cmd.rs2).isGarbage g = true

/-- `Unrolled g df t cs out`: `out` is a right thing to send for the commands `cs`. -/
inductive Unrolled (g : Geometry) (df : Support) : Bool → List GemminiCmd → List GemminiCmd → Prop
  | nil (t : Bool) : Unrolled g df t [] []
  | pair {t : Bool} {c d k : GemminiCmd} {cs out : List GemminiCmd} :
      unrolls t c d = true → k.cmd.funct = .computeAndStay → k.robId.valid = false →
      GarbageOperands g k → Unrolled g df t (d :: cs) out →
      Unrolled g df t (c :: d :: cs) (firstPreloadCmd c :: k :: secondPreloadCmd c :: out)
  | pass {t : Bool} {c : GemminiCmd} {cs out : List GemminiCmd} :
      (∀ d ∈ cs.head?, unrolls t c d = false) → Unrolled g df (transposed df t c) cs out →
      Unrolled g df t (c :: cs) (c :: out)

/-- What a command reads: D of a preload, A and B of a compute. -/
def operands (g : Geometry) (c : GemminiCmd) : List (BitVec 64) :=
  (match c.cmd.funct with
    | .preload => [c.cmd.rs1]
    | .computeAndFlip | .computeAndStay => [c.cmd.rs1, c.cmd.rs2]
    | _ => []).filter fun x => !(LocalAddr.ofWord g x).isGarbage g

variable {g : Geometry}

theorem unrolledComputes_of_unrolls (pair : unrolls t c d = true) (cs : List GemminiCmd) :
    unrolledComputes df t (c :: d :: cs) = d :: unrolledComputes df t (d :: cs) := by
  rw [unrolledComputes, transposed_of_preload (unrolls_preload pair)]
  simp [Option.filter, pair]

theorem unrolledComputes_of_pass {cs : List GemminiCmd}
    (pass : ∀ d ∈ cs.head?, unrolls t c d = false) :
    unrolledComputes df t (c :: cs) = unrolledComputes df (transposed df t c) cs := by
  rw [unrolledComputes]
  cases first : cs.head? with
  | none => rfl
  | some d => simp [Option.filter, pass d first]

theorem pair_or_pass (t : Bool) (c : GemminiCmd) (cs : List GemminiCmd) :
    (∃ d rest, cs = d :: rest ∧ unrolls t c d = true) ∨
      ∀ d ∈ cs.head?, unrolls t c d = false := by
  cases cs with
  | nil => simp
  | cons d rest =>
    cases pair : unrolls t c d with
    | true => exact .inl ⟨d, rest, rfl, pair⟩
    | false =>
      right
      rintro e ⟨rfl⟩
      exact pair

theorem unrolled_stream_iff (cs : List GemminiCmd) :
    Unrolled g df t cs (stream df t cs) ↔
      ∀ d ∈ unrolledComputes df t cs, GarbageOperands g d := by
  induction cs generalizing t with
  | nil => exact ⟨fun _ => by simp [unrolledComputes], fun _ => .nil t⟩
  | cons c cs ih =>
    rcases pair_or_pass t c cs with ⟨d, rest, rfl, pair⟩ | pass
    · rw [stream_of_unrolls pair, unrolledComputes_of_unrolls pair, List.forall_mem_cons, ← ih]
      constructor
      · intro right
        generalize sent : firstPreloadCmd c :: firstComputeCmd d :: _ = out at right
        cases right with
        | pair _ _ _ garbage right =>
          simp only [List.cons.injEq] at sent
          rw [sent.2.2.2]
          rw [← sent.2.1] at garbage
          exact ⟨garbage, right⟩
        | pass pass _ => simp [pass d rfl] at pair
      · rintro ⟨garbage, right⟩
        exact .pair pair rfl rfl garbage right
    · rw [stream_of_pass pass, unrolledComputes_of_pass pass, ← ih]
      constructor
      · intro right
        generalize sent : c :: stream df _ cs = out at right
        cases right with
        | pair pair _ _ _ _ => simp [pass _ rfl] at pair
        | pass _ right =>
          simp only [List.cons.injEq] at sent
          rw [sent.2]
          exact right
      · exact .pass pass

theorem operands_of_unrolls (pair : unrolls t c d = true) :
    operands g d = [] ↔ GarbageOperands g d := by
  simp only [unrolls, Bool.and_eq_true, decide_eq_true_eq] at pair
  simp [operands, pair.2, GarbageOperands]

theorem operands_firstComputeCmd (pair : unrolls t c d = true) :
    operands g (firstComputeCmd d) = operands g d := by
  simp only [unrolls, Bool.and_eq_true, decide_eq_true_eq] at pair
  simp [operands, pair.2, firstComputeCmd]

theorem operands_firstPreloadCmd (pair : unrolls t c d = true) :
    operands g (firstPreloadCmd c) = operands g c := by
  simp [operands, firstPreloadCmd, unrolls_preload pair]

theorem operands_secondPreloadCmd (word : g.maxAddrBits + 6 < 32) (pair : unrolls t c d = true) :
    operands g (secondPreloadCmd c) = [] := by
  simp [operands, secondPreloadCmd, unrolls_preload pair, withGarbageAddr_isGarbage word]

theorem operands_stream (word : g.maxAddrBits + 6 < 32) (cs : List GemminiCmd) :
    ((stream df t cs).flatMap (operands g)).Perm
      (cs.flatMap (operands g) ++ (unrolledComputes df t cs).flatMap (operands g)) := by
  induction cs generalizing t with
  | nil => rfl
  | cons c cs ih =>
    rcases pair_or_pass t c cs with ⟨d, rest, rfl, pair⟩ | pass
    · rw [stream_of_unrolls pair, unrolledComputes_of_unrolls pair]
      simp only [List.flatMap_cons, operands_firstPreloadCmd pair, operands_firstComputeCmd pair,
        operands_secondPreloadCmd word pair, List.nil_append, List.append_assoc]
      apply List.Perm.append_left
      rw [← List.append_assoc (operands g d)]
      apply ((ih (t := t)).append_left _).trans
      rw [List.flatMap_cons]
      apply List.perm_append_comm_assoc
    · rw [stream_of_pass pass, unrolledComputes_of_pass pass]
      simp only [List.flatMap_cons, List.append_assoc]
      exact ih.append_left _

theorem unrolls_of_mem (cs : List GemminiCmd) (mem : d ∈ unrolledComputes df t cs) :
    ∃ t c, unrolls t c d = true := by
  induction cs generalizing t with
  | nil => simp [unrolledComputes] at mem
  | cons c cs ih =>
    rcases pair_or_pass t c cs with ⟨e, rest, rfl, pair⟩ | pass
    · rw [unrolledComputes_of_unrolls pair] at mem
      rcases List.mem_cons.1 mem with rfl | mem
      · exact ⟨t, c, pair⟩
      · exact ih mem
    · rw [unrolledComputes_of_pass pass] at mem
      exact ih mem

theorem operands_stream_iff (word : g.maxAddrBits + 6 < 32) (cs : List GemminiCmd) :
    ((stream df t cs).flatMap (operands g)).Perm (cs.flatMap (operands g)) ↔
      ∀ d ∈ unrolledComputes df t cs, GarbageOperands g d := by
  have all : ((stream df t cs).flatMap (operands g)).Perm _ := operands_stream word cs
  have nothing : (unrolledComputes df t cs).flatMap (operands g) = [] ↔
      ∀ d ∈ unrolledComputes df t cs, GarbageOperands g d := by
    rw [List.flatMap_eq_nil_iff]
    apply forall₂_congr
    intro d mem
    obtain ⟨t, c, pair⟩ := unrolls_of_mem cs mem
    exact operands_of_unrolls pair
  rw [← nothing]
  constructor
  · intro once
    have length := (once.symm.trans all).length_eq
    rw [List.length_append] at length
    exact List.eq_nil_of_length_eq_zero (by omega)
  · intro empty
    rwa [empty, List.append_nil] at all

/-- In every run the ids that came in go out once and in order, and what is sent for pairs with a
transposed D is right, with every operand read once, just if the computes of these pairs have
garbage operands. -/
theorem unrolled_once_iff (word : g.maxAddrBits + 6 < 32) (reach : (unroller df t).Reachable s) :
    ids s.emitted ++ ids s.queue = ids s.received ∧
      (Unrolled g df t s.received (s.emitted ++ s.pending df) ↔
        ∀ d ∈ unrolledComputes df t s.received, GarbageOperands g d) ∧
      (((s.emitted ++ s.pending df).flatMap (operands g)).Perm (s.received.flatMap (operands g)) ↔
        ∀ d ∈ unrolledComputes df t s.received, GarbageOperands g d) := by
  have inv := inv_of_reachable reach
  have all := emitted_pending reach
  refine ⟨?_, ?_, ?_⟩
  · rw [← ids_pending inv, ← ids_append, all]
    apply ids_stream
  · rw [all]
    apply unrolled_stream_iff
  · rw [all]
    apply operands_stream_iff word

def transposedConfig : GemminiCmd := ⟨⟨.config, BitVec.ofNat 64 (2 ^ 9 + 2 ^ 2), 0⟩, 0, 0, ⟨true, 0⟩⟩

/-- A configuration, a preload of row 0 for the accumulator, and a compute. -/
def transposedPair (a b : BitVec 64) : List GemminiCmd :=
  [transposedConfig, ⟨⟨.preload, 0, BitVec.ofNat 64 (2 ^ 31)⟩, 0, 0, ⟨true, 1⟩⟩,
    ⟨⟨.computeAndFlip, a, b⟩, 0, 0, ⟨true, 2⟩⟩]

def transposedRun (a b : BitVec 64) : List Input :=
  (transposedPair a b).map (⟨some ·, true⟩) ++ List.replicate 4 ⟨none, true⟩

theorem transposedRun_reach (a b : BitVec 64) : (unroller .both false).Reachable
    ((unroller .both false).run ⟨.idle, false, [], [], []⟩ (transposedRun a b)) := by
  apply Machine.Reachable.run
  · exact .init rfl
  · simp [transposedRun, transposedPair, Machine.LegalRun, unroller]

theorem unrolled_once_garbage :
    let s := (unroller .both false).run ⟨.idle, false, [], [], []⟩
      (transposedRun (withGarbageAddr 0) (withGarbageAddr 0))
    s.emitted.length = 5 ∧ ids s.emitted ++ ids s.queue = [0, 1, 2] ∧
      Unrolled fourArray.geometry .both false s.received (s.emitted ++ s.pending .both) := by
  intro s
  have once := unrolled_once_iff (g := fourArray.geometry) (by decide)
    (transposedRun_reach (withGarbageAddr 0) (withGarbageAddr 0))
  refine ⟨by decide, once.1, once.2.1.2 ?_⟩
  have computes : unrolledComputes .both false s.received =
      [⟨⟨.computeAndFlip, withGarbageAddr 0, withGarbageAddr 0⟩, 0, 0, ⟨true, 2⟩⟩] := by
    decide
  rw [computes]
  simp only [List.mem_singleton, forall_eq, GarbageOperands]
  decide

/-- A matmul of rows 4 and 8 with a transposed D reads A and B twice. -/
theorem operands_read_twice :
    let s := (unroller .both false).run ⟨.idle, false, [], [], []⟩ (transposedRun 4 8)
    (unroller .both false).Reachable s ∧ s.queue = [] ∧
      s.emitted.map (·.cmd.funct) =
        [.config, .preload, .computeAndStay, .preload, .computeAndFlip] ∧
      s.received.flatMap (operands fourArray.geometry) = [0, 4, 8] ∧
      s.emitted.flatMap (operands fourArray.geometry) = [0, 4, 8, 4, 8] ∧
      ¬ Unrolled fourArray.geometry .both false s.received s.emitted := by
  intro s
  refine ⟨transposedRun_reach 4 8, by decide, by decide, by decide,
    by decide, ?_⟩
  have all : s.emitted = stream .both false s.received := by decide
  rw [all, unrolled_stream_iff]
  intro garbage
  have compute := garbage ⟨⟨.computeAndFlip, 4, 8⟩, 0, 0, ⟨true, 2⟩⟩ (by decide)
  exact absurd compute.1 (by decide)

end Unroller

end Gemmini.Execute
