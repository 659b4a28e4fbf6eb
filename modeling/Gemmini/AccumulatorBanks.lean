import Gemmini.AccumulatorMem

/-!
# The accumulator banks and their shared adder

The accumulator side of `Scratchpad.scala`: a result row, a row from one of the two mvin scalers and a
zero row may be offered in the same cycle, each bank takes the first that is meant for it, and all banks
share the adder `AccPipeShared`, which selects its operands with `Mux1H`.  Address and accumulate flag
of a zero row are muxed with those of a scaler that has a row for any bank.
-/

namespace Gemmini.AccumulatorBanks

open AccumulatorMem (Row WriteReq ReadReq ReadTag adderOps writeFire applyAll)

abbrev Bytes (lanes : Nat) := Row lanes (BitVec 8)

/-- A row offered by a scaler or by the zero writer; `isAcc` is off for scratchpad rows. -/
structure Beat (banks : Nat) (Addr : Type) (lanes : Nat) where
  isAcc : Bool
  bank : Fin banks
  row : Addr
  data : Bytes lanes
  mask : Fin lanes → Bool
  accumulate : Bool
  last : Bool

variable {banks lanes : Nat} {Addr Scale Elem : Type}

def Beat.write (b : Beat banks Addr lanes) : WriteReq Addr lanes (BitVec 8) :=
  ⟨b.row, b.data, b.accumulate, b.mask⟩

/-- `io.acc.write`, the pixel repeaters, `mvin_scale_acc` and the reads.  `stale` is what the adder
registers hold before the first sum. -/
structure Input (banks : Nat) (Addr : Type) (lanes : Nat) (Scale Elem : Type) where
  ex : Fin banks → Option (WriteReq Addr lanes (BitVec 8))
  mvinScale : Option (Beat banks Addr lanes)
  mvinScaleAcc : Option (Beat banks Addr lanes)
  zeroWriter : Option (Beat banks Addr lanes)
  read : Fin banks → Option (ReadReq Addr Scale Elem)
  respReady : Fin banks → Bool
  idleTag : Fin banks → ReadTag Scale Elem
  undefined : Fin banks → Bytes lanes
  stale : Bytes lanes

namespace Input

variable (inp : Input banks Addr lanes Scale Elem)

/-- `from_mvin_scale`, else `from_mvin_scale_acc`: the row of `dmaread_bank` and `dmaread_row`. -/
def dmaBeat : Option (Beat banks Addr lanes) :=
  (inp.mvinScale.filter (·.isAcc)).or (inp.mvinScaleAcc.filter (·.isAcc))

def dmaread (i : Fin banks) : Bool := inp.dmaBeat.any fun b => b.bank = i

def spadLast : Bool := inp.mvinScale.any fun b => b.last && !b.isAcc

def zerowrite (i : Fin banks) : Bool :=
  inp.zeroWriter.any (fun z => z.isAcc && z.bank = i) &&
    !(inp.mvinScale.any (·.last) || inp.mvinScaleAcc.any (·.last))

/-- The zero row as it is written: with address and flag of a scaler row, if there is one. -/
def zeroWrite (z : Beat banks Addr lanes) : WriteReq Addr lanes (BitVec 8) where
  addr := (inp.dmaBeat.getD z).row
  data := fun _ => 0
  acc := (inp.dmaBeat.getD z).accumulate
  mask := z.mask

/-- `bio.write` of bank `i`. -/
def bankWrite (i : Fin banks) : Option (WriteReq Addr lanes (BitVec 8)) :=
  match inp.ex i with
  | some w => some w
  | none =>
    if inp.dmaread i && !inp.spadLast then inp.dmaBeat.map Beat.write
    else if inp.zerowrite i && !inp.spadLast then inp.zeroWriter.map inp.zeroWrite
    else none

/-- The request of the requester that bank `i` serves, as that requester made it. -/
def meant (i : Fin banks) : Option (WriteReq Addr lanes (BitVec 8)) :=
  match inp.ex i with
  | some w => some w
  | none =>
    if inp.dmaread i && !inp.spadLast then inp.dmaBeat.map Beat.write
    else if inp.zerowrite i && !inp.spadLast then
      inp.zeroWriter.map fun z => { z.write with data := fun _ => 0 }
    else none

end Input

/-- `Mux1H`: the selected inputs are ored. -/
def mux1H (inputs : Fin banks → Option (Bytes lanes)) : Bytes lanes := fun k =>
  (List.finRange banks).foldr (fun i acc => ((inputs i).elim 0 (· k)) ||| acc) 0

theorem mux1H_single {inputs : Fin banks → Option (Bytes lanes)} {i : Fin banks} {r : Bytes lanes}
    (selected : inputs i = some r) (others : ∀ j, j ≠ i → inputs j = none) : mux1H inputs = r := by
  have ofList : ∀ (l : List (Fin banks)) (k : Fin lanes),
      l.foldr (fun j acc => ((inputs j).elim 0 (· k)) ||| acc) 0 = if i ∈ l then r k else 0 := by
    intro l k
    induction l with
    | nil => rfl
    | cons j l ih =>
      rw [List.foldr_cons, ih]
      rcases eq_or_ne j i with rfl | other
      · rw [selected]
        by_cases again : j ∈ l <;> simp [again]
      · simp [others j other, other.symm]
  funext k
  rw [mux1H, ofList, if_pos (List.mem_finRange i)]

/-- The banks with their history, the sums that `AccPipeShared` has formed, and for every bank the
requests it accepted, latest first. -/
structure Tracked (banks : Nat) (Addr : Type) (lanes : Nat) (Scale Elem : Type) where
  bank : Fin banks → AccumulatorMem.Tracked Addr lanes (BitVec 8) Scale Elem
  sums : List (Bytes lanes)
  meant : Fin banks → List (Option (WriteReq Addr lanes (BitVec 8)))

section Step

variable [DecidableEq Addr] (add : Bytes lanes → Bytes lanes → Bytes lanes) (accLatency : Nat)
  (t : Tracked banks Addr lanes Scale Elem) (inp : Input banks Addr lanes Scale Elem)

def sharedSum : Bytes lanes :=
  add (mux1H fun i => (adderOps (t.bank i).state).map (·.1))
    (mux1H fun i => (adderOps (t.bank i).state).map (·.2))

/-- The inputs of bank `i`; every bank sees the output of the shared adder. -/
def bankInput (i : Fin banks) : AccumulatorMem.Input Addr lanes (BitVec 8) Scale Elem where
  read := inp.read i
  write := inp.bankWrite i
  respReady := inp.respReady i
  adderSum := (t.sums[accLatency - 2]?).getD inp.stale
  idleTag := inp.idleTag i
  undefined := inp.undefined i

/-- The write that bank `i` accepts in this cycle. -/
def fires (i : Fin banks) : Option (WriteReq Addr lanes (BitVec 8)) :=
  writeFire accLatency (t.bank i).state (bankInput accLatency t inp i)

def Tracked.next : Tracked banks Addr lanes Scale Elem where
  bank i := (t.bank i).next add accLatency (bankInput accLatency t inp i)
  sums := sharedSum add t :: t.sums
  meant i := (if (fires accLatency t inp i).isSome then inp.meant i else none) :: t.meant i

def machine : Machine (Tracked banks Addr lanes Scale Elem)
    (Input banks Addr lanes Scale Elem) where
  init t := (∀ i, (AccumulatorMem.machine add accLatency).init (t.bank i)) ∧ t.sums = [] ∧
    ∀ i, t.meant i = []
  legal _ _ := True
  step := Tracked.next add accLatency

/-- Every accepted request that has reached its memory was applied to its own row, with its own operand,
in order. -/
def OwnOperands : Prop :=
  ∀ i, (t.bank i).state.mem =
    applyAll add ((t.meant i).drop accLatency) (t.bank i).initial

/-- At most one bank accepts an accumulating write, and no zero row meets a scaler row for the
accumulator. -/
structure OneAtATime : Prop where
  accumulate : ∀ i j, ((fires accLatency t inp i).filter (·.acc)).isSome →
    ((fires accLatency t inp j).filter (·.acc)).isSome → i = j
  zero : ∀ i, inp.ex i = none → inp.dmaread i = false → inp.zerowrite i = true →
    inp.dmaBeat = none

end Step

theorem Input.bankWrite_eq_meant {inp : Input banks Addr lanes Scale Elem} {i : Fin banks}
    (zero : inp.ex i = none → inp.dmaread i = false → inp.zerowrite i = true →
      inp.dmaBeat = none) : inp.bankWrite i = inp.meant i := by
  unfold bankWrite meant
  cases ex : inp.ex i with
  | some w => rfl
  | none =>
    split_ifs with dma served
    · rfl
    · have noDma : inp.dmaread i = false := by
        simp only [Bool.and_eq_true, Bool.not_eq_true'] at dma served
        exact Bool.eq_false_of_not_eq_true fun reads => dma ⟨reads, served.2⟩
      have alone := zero ex noDma (Bool.and_eq_true _ _ ▸ served).1
      unfold zeroWrite
      rw [alone]
      rfl
    · rfl

section Invariant

variable [DecidableEq Addr] {add : Bytes lanes → Bytes lanes → Bytes lanes} {accLatency : Nat}
  {t : Tracked banks Addr lanes Scale Elem} {inp : Input banks Addr lanes Scale Elem}

/-- Each bank is in a state of one of its own runs; the adder has the sums asked for; at most one bank
is asking. -/
structure Inv (add : Bytes lanes → Bytes lanes → Bytes lanes) (accLatency : Nat)
    (t : Tracked banks Addr lanes Scale Elem) : Prop where
  bank : ∀ i, (AccumulatorMem.machine add accLatency).Reachable (t.bank i)
  sums : ∀ (i : Fin banks) (k : Nat) (ops : Bytes lanes × Bytes lanes),
    (t.bank i).asked[k]? = some (some ops) →
    t.sums[k]? = some (add ops.1 ops.2)
  asking : ∀ i j, (adderOps (t.bank i).state).isSome → (adderOps (t.bank j).state).isSome → i = j
  meant : ∀ i, t.meant i = (t.bank i).accepted

theorem Inv.init (h : (machine add accLatency).init t) : Inv add accLatency t := by
  obtain ⟨bank, _, meant⟩ := h
  refine ⟨fun i => .init (bank i), fun i k ops asked => ?_, fun i j asks => ?_, fun i => ?_⟩
  · obtain ⟨_, _, _, _, _, none, _⟩ := bank i
    simp [none] at asked
  · obtain ⟨line, _⟩ := bank i
    simp [adderOps, line] at asks
  · obtain ⟨_, _, _, _, none, _⟩ := bank i
    rw [meant, none]

theorem adderOps_next_isSome {i : Fin banks}
    (asks : (adderOps ((t.next add accLatency inp).bank i).state).isSome) :
    ((fires accLatency t inp i).filter (·.acc)).isSome := by
  have first : ((t.next add accLatency inp).bank i).state.pipelinedWrites 0 =
      fires accLatency t inp i := rfl
  unfold adderOps at asks
  rw [first] at asks
  cases fired : fires accLatency t inp i with
  | none => simp [fired] at asks
  | some w =>
    cases acc : w.acc with
    | false => simp [fired, acc] at asks
    | true => simp [acc]

theorem Inv.sharedSum_eq (inv : Inv add accLatency t) {i : Fin banks}
    {ops : Bytes lanes × Bytes lanes} (asks : adderOps (t.bank i).state = some ops) :
    sharedSum add t = add ops.1 ops.2 := by
  have others : ∀ j, j ≠ i → adderOps (t.bank j).state = none := by
    intro j other
    by_contra asksToo
    have isSome := Option.isSome_iff_ne_none.mpr asksToo
    exact other (inv.asking j i isSome (by simp [asks]))
  rw [sharedSum, mux1H_single (i := i) (r := ops.1), mux1H_single (i := i) (r := ops.2)]
  · rw [asks]; rfl
  · intro j other
    rw [others j other]; rfl
  · rw [asks]; rfl
  · intro j other
    rw [others j other]; rfl

theorem Inv.next (inv : Inv add accLatency t) (one : OneAtATime accLatency t inp) :
    Inv add accLatency (t.next add accLatency inp) := by
  refine ⟨fun i => ?_, fun i k ops asked => ?_, fun i j asks asks' => ?_, fun i => ?_⟩
  · -- the adder answers every bank with the sum it asked for
    have legal : (AccumulatorMem.machine add accLatency).legal (t.bank i)
        (bankInput accLatency t inp i) := by
      intro ops asked
      have asked := Option.join_eq_some_iff.mp asked
      show (t.sums[accLatency - 2]?).getD inp.stale = _
      rw [inv.sums i _ ops asked]
      rfl
    exact (inv.bank i).step legal
  · cases k with
    | zero =>
      have asks := Option.some.inj asked
      show some (sharedSum add t) = _
      rw [inv.sharedSum_eq asks]
    | succ k => exact inv.sums i k ops asked
  · exact one.accumulate i j (adderOps_next_isSome asks) (adderOps_next_isSome asks')
  · show (if (fires accLatency t inp i).isSome then inp.meant i else none) :: t.meant i =
      fires accLatency t inp i :: (t.bank i).accepted
    rw [inv.meant i, ← Input.bankWrite_eq_meant (one.zero i)]
    cases fired : fires accLatency t inp i with
    | none => rfl
    | some w =>
      have offered : inp.bankWrite i = some w := (Option.filter_eq_some_iff.mp fired).1
      rw [offered]
      rfl

/-- In every run in which the banks are used one at a time, every accepted write takes effect on its
own row with its own operand. -/
theorem own_operands_of_one_at_a_time (latency : 2 ≤ accLatency)
    (reach : ((machine add accLatency).restrict (OneAtATime accLatency)).Reachable t) :
    OwnOperands add accLatency t := by
  have inv : Inv add accLatency t := by
    refine reach.invariant (P := Inv add accLatency) ?_ ?_
    · exact fun _ => Inv.init
    · exact fun _ _ _ inv legal => inv.next legal.2
  intro i
  rw [inv.meant i]
  exact (AccumulatorMem.accepted_in_order latency (inv.bank i)).1

end Invariant

/-! ### Runs with two banks -/

def resetBanks : Tracked 2 Bool 1 Nat Nat where
  bank _ := {
    state := ⟨fun _ => none, fun _ _ => 0, fun _ => 0, ⟨0, 0, 0, 0, 0, 0, false⟩, false, []⟩
    initial := fun _ _ => 0
    accepted := []
    asked := []
    expected := []
    delivered := [] }
  sums := []
  meant _ := []

theorem resetBanks_init (add : Bytes 1 → Bytes 1 → Bytes 1) (accLatency : Nat) :
    (machine add accLatency).init resetBanks :=
  ⟨fun _ => ⟨fun _ => rfl, rfl, rfl, rfl, rfl, rfl, rfl, rfl⟩, rfl, fun _ => rfl⟩

def quiet : Input 2 Bool 1 Nat Nat where
  ex _ := none
  mvinScale := none
  mvinScaleAcc := none
  zeroWriter := none
  read _ := none
  respReady _ := true
  idleTag _ := ⟨0, 0, 0, 0, 0, 0, false⟩
  undefined _ _ := 0
  stale _ := 0

/-- The execute controller accumulates `x` onto row `false` of bank 0. -/
def accumulateEx (x : BitVec 8) : Fin 2 → Option (WriteReq Bool 1 (BitVec 8)) :=
  fun i => if i.val = 0 then some ⟨false, fun _ => x, true, fun _ => true⟩ else none

/-- An mvin accumulates `x` onto row `false` of bank 1. -/
def accumulateMvin (x : BitVec 8) : Beat 2 Bool 1 :=
  ⟨true, Fin.last 1, false, fun _ => x, fun _ => true, true, false⟩

instance (inp : Input 2 Bool 1 Nat Nat) (t : Tracked 2 Bool 1 Nat Nat) :
    Decidable (OneAtATime 2 t inp) :=
  decidable_of_iff
    ((∀ i j, ((fires 2 t inp i).filter (·.acc)).isSome →
        ((fires 2 t inp j).filter (·.acc)).isSome → i = j) ∧
      ∀ i, (inp.ex i).isNone → inp.dmaread i = false → inp.zerowrite i = true →
        inp.dmaBeat.isNone)
    ⟨fun ⟨accumulate, zero⟩ => ⟨accumulate, fun i ex dma served =>
        Option.isNone_iff_eq_none.mp (zero i (Option.isNone_iff_eq_none.mpr ex) dma served)⟩,
      fun one => ⟨one.accumulate, fun i ex dma served => Option.isNone_iff_eq_none.mpr
        (one.zero i (Option.isNone_iff_eq_none.mp ex) dma served)⟩⟩

def inTurn : List (Input 2 Bool 1 Nat Nat) :=
  [{ quiet with ex := accumulateEx 1 }, { quiet with mvinScaleAcc := some (accumulateMvin 2) },
    quiet, quiet, quiet]

theorem in_turn_own_operands :
    let add : Bytes 1 → Bytes 1 → Bytes 1 := fun x y i => x i + y i
    let t := (machine add 2).run resetBanks inTurn
    OwnOperands add 2 t ∧ (t.bank 0).state.mem false 0 = 1 ∧ (t.bank 1).state.mem false 0 = 2 := by
  intro add t
  have start : ((machine add 2).restrict (OneAtATime 2)).Reachable resetBanks :=
    .init (resetBanks_init add 2)
  have reach := start.run inTurn ?_
  · exact ⟨own_operands_of_one_at_a_time le_rfl reach, by decide, by decide⟩
  · refine ⟨⟨trivial, ?_⟩, ⟨trivial, ?_⟩, ⟨trivial, ?_⟩, ⟨trivial, ?_⟩, ⟨trivial, ?_⟩, trivial⟩ <;>
      decide

def together : List (Input 2 Bool 1 Nat Nat) :=
  [{ quiet with ex := accumulateEx 1, mvinScaleAcc := some (accumulateMvin 2) }, quiet, quiet,
    quiet]

/-- Both banks get the sum of the ored operands: bank 0 holds 3 where 1 was accumulated onto 0. -/
theorem operands_of_two_banks_mixed :
    let add : Bytes 1 → Bytes 1 → Bytes 1 := fun x y i => x i + y i
    ∃ t : Tracked 2 Bool 1 Nat Nat, (machine add 2).Reachable t ∧
      (t.meant 0)[3]?.join.map (fun w => w.data 0) = some 1 ∧ (t.bank 0).state.mem false 0 = 3 ∧
      ¬OwnOperands add 2 t := by
  intro add
  have start : (machine add 2).Reachable resetBanks := .init (resetBanks_init add 2)
  refine ⟨_, start.run together ⟨trivial, trivial, trivial, trivial, trivial⟩, by decide,
    by decide, fun own => ?_⟩
  have row := congrFun (congrFun (own 0) false) 0
  revert row
  decide

end Gemmini.AccumulatorBanks
