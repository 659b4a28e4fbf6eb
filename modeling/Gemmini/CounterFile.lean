import Gemmini.LocalAddr

/-!
# Performance counters

`CounterFile.scala`: a counter counts events of its own or stands for a value kept elsewhere.  A
snapshot copies all of them at once, but decides for each by the kind of the counter that the command
names.
-/

namespace Gemmini.CounterFile

variable {w : ℕ}

structure Regs (w : ℕ) where
  config : ℕ → ℕ
  isExternal : ℕ → Bool
  snapshot : ℕ → BitVec w
  counters : ℕ → BitVec w
  snapshotEnable : Bool
  outValid : Bool
  outData : BitVec w

/-- One cycle; `cmd` is the `rs1` of a command that is offered. -/
structure Input (w : ℕ) where
  cmd : Option (BitVec 64)
  outReady : Bool
  events : ℕ → Bool
  externals : ℕ → BitVec w

/-- The counter that a command names, by `k` bits. -/
def addr (k : ℕ) (rs1 : BitVec 64) : ℕ := slice rs1 4 k

variable (k : ℕ) (s : Regs w) (x : Input w)

/-- `io.in.fire`. -/
def fire : Option (BitVec 64) := if s.outValid then none else x.cmd

/-- `take_value` for counter `i`, where `named` is on the address port. -/
def takeValue (named i : ℕ) : BitVec w :=
  if s.isExternal named then x.externals (s.config i) else s.counters i

/-- `io.data`. -/
def data (named : ℕ) : BitVec w :=
  if s.snapshotEnable then s.snapshot named else takeValue s x named named

def next : Regs w :=
  match fire s x with
  | none =>
    { s with
      counters := fun i => if x.events (s.config i) then s.counters i + 1 else s.counters i
      outValid := s.outValid && !x.outReady }
  | some rs1 =>
    let named := addr k rs1
    let counterReset := bit rs1 0
    let snapshotReset := bit rs1 1
    let configValid := bit rs1 3
    { config := if configValid then Function.update s.config named (slice rs1 12 6) else s.config
      isExternal := if configValid then Function.update s.isExternal named (bit rs1 31)
        else s.isExternal
      snapshot := fun i =>
        if counterReset then 0
        else if !snapshotReset && bit rs1 2 then takeValue s x named i else s.snapshot i
      counters := fun i =>
        if counterReset then 0
        else if configValid && named == i then 0
        else if x.events (s.config i) then s.counters i + 1 else s.counters i
      snapshotEnable :=
        if counterReset then false
        else if snapshotReset then false else bit rs1 2 || s.snapshotEnable
      outValid := true
      outData := data s x named }

/-- What counter `i` stands at. -/
def value (i : ℕ) : BitVec w := if s.isExternal i then x.externals (s.config i) else s.counters i

/-- The command does nothing to the snapshot. -/
def Keeps (rs1 : BitVec 64) : Prop := bit rs1 0 = false ∧ bit rs1 1 = false ∧ bit rs1 2 = false

/-- No command of these cycles clears the snapshot or takes another one. -/
def Undisturbed : Regs w → List (Input w) → Prop
  | _, [] => True
  | s, x :: later => (∀ rs1 ∈ fire s x, Keeps rs1) ∧ Undisturbed (next k s x) later

variable {k s x}

theorem next_keeps (quiet : ∀ rs1 ∈ fire s x, Keeps rs1) :
    (next k s x).snapshot = s.snapshot ∧ (next k s x).snapshotEnable = s.snapshotEnable := by
  unfold next
  cases accepted : fire s x with
  | none => exact ⟨rfl, rfl⟩
  | some rs1 =>
    obtain ⟨reset, clear, take⟩ := quiet rs1 accepted
    simp [reset, clear, take]

theorem foldl_keeps {later : List (Input w)} (quiet : Undisturbed k s later) :
    (later.foldl (next k) s).snapshot = s.snapshot ∧
      (later.foldl (next k) s).snapshotEnable = s.snapshotEnable := by
  induction later generalizing s with
  | nil => exact ⟨rfl, rfl⟩
  | cons x later ih =>
    obtain ⟨snapshot, enable⟩ := ih quiet.2
    obtain ⟨snapshot', enable'⟩ := next_keeps quiet.1 (k := k)
    exact ⟨snapshot.trans snapshot', enable.trans enable'⟩

theorem next_takes {rs1 : BitVec 64} (accepted : fire s x = some rs1) (reset : bit rs1 0 = false)
    (clear : bit rs1 1 = false) (take : bit rs1 2 = true) :
    (next k s x).snapshot = takeValue s x (addr k rs1) ∧ (next k s x).snapshotEnable = true := by
  simp [next, accepted, reset, clear, take]

theorem outData_next {rs1 : BitVec 64} (accepted : fire s x = some rs1) :
    (next k s x).outData = data s x (addr k rs1) := by
  simp only [next, accepted]

theorem takeValue_eq_value_iff {named i : ℕ} : takeValue s x named i = value s x i ↔
    s.isExternal i = s.isExternal named ∨ x.externals (s.config i) = s.counters i := by
  unfold takeValue value
  cases s.isExternal i <;> cases s.isExternal named <;> simp [eq_comm]

/-- After a snapshot command, every counter reads as it stood when the snapshot was taken until the
snapshot is cleared or taken again, exactly if each counter that can be named is of the kind of the
one that the snapshot command names, or both its values agree. -/
theorem snapshot_reads_iff {rs1 : BitVec 64} (accepted : fire s x = some rs1)
    (reset : bit rs1 0 = false) (clear : bit rs1 1 = false) (take : bit rs1 2 = true) :
    (∀ (later : List (Input w)) (y : Input w) (read : BitVec 64),
      Undisturbed k (next k s x) later → fire (later.foldl (next k) (next k s x)) y = some read →
      (next k (later.foldl (next k) (next k s x)) y).outData = value s x (addr k read)) ↔
    ∀ read : BitVec 64, s.isExternal (addr k read) = s.isExternal (addr k rs1) ∨
      x.externals (s.config (addr k read)) = s.counters (addr k read) := by
  obtain ⟨taken, enabled⟩ := next_takes (k := k) accepted reset clear take
  have reads {later : List (Input w)} {y : Input w} {read : BitVec 64}
      (quiet : Undisturbed k (next k s x) later)
      (fires : fire (later.foldl (next k) (next k s x)) y = some read) :
      (next k (later.foldl (next k) (next k s x)) y).outData =
        takeValue s x (addr k rs1) (addr k read) := by
    obtain ⟨snapshot, enable⟩ := foldl_keeps quiet
    rw [outData_next fires, data, enable, enabled, if_pos rfl, snapshot, taken]
  constructor
  · intro same read
    -- the answer to the snapshot command leaves in the next cycle, then `read` is accepted
    have answers : (next k s x).outValid = true := by simp only [next, accepted]
    have idle : fire (next k s x) ⟨none, true, x.events, x.externals⟩ = none := by
      simp only [fire, answers, if_pos]
    have quiet : Undisturbed k (next k s x) [⟨none, true, x.events, x.externals⟩] := by
      simp [Undisturbed, idle]
    have free : fire (next k (next k s x) ⟨none, true, x.events, x.externals⟩)
        ⟨some read, true, x.events, x.externals⟩ = some read := by
      rw [next, idle, fire]
      simp
    rw [← takeValue_eq_value_iff, ← same _ _ read quiet free]
    exact (reads quiet free).symm
  · intro kinds later y read quiet fires
    rw [reads quiet fires]
    exact takeValue_eq_value_iff.mpr (kinds read)

def resetRegs : Regs 32 :=
  ⟨fun _ => 0, fun _ => false, fun _ => 0, fun _ => 0, false, false, 0⟩

/-- Event 0 in every cycle, and 9 as every external value. -/
def cycle (cmd : Option (BitVec 64)) : Input 32 := ⟨cmd, true, fun _ => true, fun _ => 9⟩

theorem internal_counters_read : (next 3 ([cycle none].foldl (next 3)
    (next 3 resetRegs (cycle (some 4)))) (cycle (some 16))).outData = 0 :=
  (snapshot_reads_iff (show fire resetRegs (cycle (some 4)) = some 4 from rfl) (by decide)
    (by decide) (by decide)).mpr (fun _ => .inl rfl) [cycle none] (cycle (some 16)) 16
    ⟨by rintro _ ⟨⟩, trivial⟩ (by decide)

/-- Counter 1 is made internal and counter 0 external, then counter 0 is named by a snapshot command:
counter 1, which has counted three events, reads as an external value. -/
theorem internal_counter_misread :
    let s := [cycle (some 0x18), cycle none, cycle (some 0x80000008), cycle none].foldl (next 3) resetRegs
    value s (cycle (some 4)) 1 = 3 ∧
      ([cycle (some 4), cycle none, cycle (some 16)].foldl (next 3) s).outData = 9 := by
  decide

end Gemmini.CounterFile
