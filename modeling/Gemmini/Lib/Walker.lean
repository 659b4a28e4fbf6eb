import Gemmini.Lib.Pipeline

/-!
# Units that walk over positions

A unit steps from position to position, sends the command of each into a pipeline, and is idle when it
has passed the last one and the pipeline is empty.  However it is held up, what it hands out for a
request is the list of commands of the positions from the first to the last.
-/

namespace Gemmini.Walker

open Pipeline (busy enqFire held deqFire conserved)

variable {R X E : Type}

/-- How requests `R` are worked off, over positions `X` with commands `E`. -/
structure Spec (R X E : Type) where
  start : R → X
  /-- The next position; there is none after the last. -/
  step : R → X → Option X
  /-- The command of a position, if it has one. -/
  emit : R → X → Option E
  /-- The request is dropped at once. -/
  dead : R → Bool

/-- The commands from a position on. -/
inductive Emits (S : Spec R X E) (r : R) : X → List E → Prop
  | last {x : X} : S.step r x = none → Emits S r x (S.emit r x).toList
  | more {x y : X} {es : List E} : S.step r x = some y → Emits S r y es →
      Emits S r x ((S.emit r x).toList ++ es)

def Total (S : Spec R X E) (r : R) (es : List E) : Prop :=
  if S.dead r then es = [] else Emits S r (S.start r) es

/-- The commands that are still to be sent into the pipeline. -/
def Rest (S : Spec R X E) (r : R) : Option X → List E → Prop
  | none, es => es = []
  | some x, es => if S.dead r then es = [] else Emits S r x es

/-- The registers of a unit; it has no position when it has none to pass over. -/
structure Unit (R X E : Type) where
  req : R
  pos : Option X
  pipe : List (Option E)

namespace Unit

variable (S : Spec R X E) (w : Unit R X E) (gate outReady : Bool)

/-- `io.idle`. -/
def idle : Bool := w.pos.isNone && !busy w.pipe

/-- The command offered to the pipeline, unless the unit is held up. -/
def offered : Option E :=
  if gate && !S.dead w.req then w.pos.bind (S.emit w.req) else none

/-- The position has no command and is passed over. -/
def passes : Bool := w.pos.isSome && (w.pos.bind (S.emit w.req)).isNone

/-- The position after the clock edge, without a new request. -/
def nextPos : Option X :=
  if S.dead w.req then none
  else if (enqFire (w.offered S gate) w.pipe outReady).isSome || w.passes S then
    w.pos.bind (S.step w.req)
  else w.pos

/-- The registers after the clock edge; `new` is a request that is taken up. -/
def next (new : Option R) : Unit R X E where
  req := new.getD w.req
  pos := match new with
    | some r => some (S.start r)
    | none => w.nextPos S gate outReady
  pipe := Pipeline.next (w.offered S gate) w.pipe outReady

/-- What has been handed out, what is in the pipeline and what is still to come make up the request. -/
structure Owes (handed : List E) : Prop where
  total : ∀ rest, Rest S w.req w.pos rest →
    Total S w.req (handed ++ held w.pipe ++ rest)
  rest : ∀ es, Total S w.req es →
    ∃ rest, Rest S w.req w.pos rest ∧ es = handed ++ held w.pipe ++ rest
  made : ∀ e ∈ handed ++ held w.pipe, ∃ x, S.emit w.req x = some e

end Unit

section Lemmas

variable {S : Spec R X E} {r : R} {x : X} {es es' : List E}

theorem Emits.unique (h : Emits S r x es) (h' : Emits S r x es') : es = es' := by
  induction h generalizing es' with
  | last ends =>
    cases h' with
    | last _ => rfl
    | more goes _ => cases ends.symm.trans goes
  | more goes _ ih =>
    cases h' with
    | last ends => cases ends.symm.trans goes
    | more goes' tail =>
      cases goes.symm.trans goes'
      rw [ih tail]

theorem Emits.emit_mem (h : Emits S r x es) {e : E} (emit : S.emit r x = some e) : e ∈ es := by
  cases h with
  | last _ => simp [emit]
  | more _ _ => simp [emit]

theorem Emits.tail {y : X} (h : Emits S r x es) (goes : S.step r x = some y) :
    ∃ es', Emits S r y es' ∧ es = (S.emit r x).toList ++ es' := by
  cases h with
  | last ends => cases ends.symm.trans goes
  | more goes' rest =>
    cases goes.symm.trans goes'
    exact ⟨_, rest, rfl⟩

/-- A walk whose steps keep an invariant and descend comes to an end, and all its commands are those
of positions with the invariant. -/
theorem exists_emits {rel : X → X → Prop} (wf : WellFounded rel) {Inv : X → Prop}
    (step : ∀ x, Inv x → ∀ y, S.step r x = some y → Inv y ∧ rel y x) {x : X} (inv : Inv x) :
    ∃ es, Emits S r x es ∧ ∀ e ∈ es, ∃ y, Inv y ∧ S.emit r y = some e := by
  induction x using wf.induction with
  | _ x ih =>
    have here : ∀ e ∈ (S.emit r x).toList, ∃ y, Inv y ∧ S.emit r y = some e :=
      fun e mem => ⟨x, inv, Option.mem_toList.mp mem⟩
    cases goes : S.step r x with
    | none => exact ⟨_, .last goes, here⟩
    | some y =>
      obtain ⟨inv', descends⟩ := step x inv y goes
      obtain ⟨es, emits, made⟩ := ih y descends inv'
      refine ⟨_, .more goes emits, fun e mem => ?_⟩
      rcases List.mem_append.mp mem with now | later
      · exact here e now
      · exact made e later

theorem total_iff_emits (alive : S.dead r = false) : Total S r es ↔ Emits S r (S.start r) es := by
  simp [Total, alive]

theorem total_nil (dead : S.dead r = true) : Total S r [] := by
  simp [Total, dead]

theorem Total.unique (h : Total S r es) (h' : Total S r es') : es = es' := by
  unfold Total at h h'
  split at h
  · simp_all
  · rw [if_neg (by assumption)] at h'
    exact h.unique h'

/-- Every command of a request is that of some position. -/
theorem Emits.made (h : Emits S r x es) {e : E} (mem : e ∈ es) : ∃ y, S.emit r y = some e := by
  induction h with
  | last _ => exact ⟨_, Option.mem_toList.mp mem⟩
  | more _ _ ih =>
    rcases List.mem_append.mp mem with here | later
    · exact ⟨_, Option.mem_toList.mp here⟩
    · exact ih later

theorem Total.made (h : Total S r es) {e : E} (mem : e ∈ es) : ∃ y, S.emit r y = some e := by
  unfold Total at h
  split at h
  · simp [h] at mem
  · exact h.made mem

theorem rest_some_iff (alive : S.dead r = false) (rest : List E) :
    Rest S r (some x) rest ↔
      ∃ rest', Rest S r (S.step r x) rest' ∧ rest = (S.emit r x).toList ++ rest' := by
  simp only [Rest, alive, Bool.false_eq_true, if_false]
  constructor
  · intro h
    cases h with
    | last ends => exact ⟨[], by simp [ends], by simp⟩
    | more goes tail => exact ⟨_, by simpa [goes, Rest, alive] using tail, rfl⟩
  · rintro ⟨rest', tail, rfl⟩
    cases hstep : S.step r x with
    | none =>
      rw [hstep] at tail
      obtain rfl : rest' = [] := tail
      rw [List.append_nil]
      exact .last hstep
    | some y =>
      rw [hstep] at tail
      exact .more hstep (by simpa [Rest, alive] using tail)

namespace Unit

variable {w : Unit R X E} {gate outReady : Bool} {handed : List E}

theorem idle_iff : w.idle = true ↔ w.pos = none ∧ held w.pipe = [] := by
  have empty := not_congr (Pipeline.busy_iff_held w.pipe)
  rw [not_not, Bool.not_eq_true] at empty
  rw [idle, Bool.and_eq_true, Option.isNone_iff_eq_none, Bool.not_eq_true', empty]

theorem deqFire_of_idle (idle : w.idle = true) (outReady : Bool) :
    deqFire w.pipe outReady = none :=
  Pipeline.deqFire_of_empty (idle_iff.mp idle).2 outReady

@[simp] theorem idle_next_some (r : R) : (w.next S gate outReady (some r)).idle = false := rfl

theorem held_next_of_idle (idle : w.idle = true) (stage : w.pipe ≠ []) (new : Option R) :
    held (w.next S gate outReady new).pipe = [] := by
  obtain ⟨pos, empty⟩ := idle_iff.mp idle
  have none : w.offered S gate = none := by simp [offered, pos]
  have flow := conserved (w.offered S gate) stage outReady
  rw [empty, none] at flow
  have := (List.append_eq_nil_iff.mp (flow.symm.trans (by simp [enqFire]))).2
  simpa [Unit.next, none] using this

theorem idle_next (idle : w.idle = true) (stage : w.pipe ≠ []) :
    (w.next S gate outReady none).idle = true := by
  refine idle_iff.mpr ⟨?_, held_next_of_idle idle stage none⟩
  simp [Unit.next, nextPos, (idle_iff.mp idle).1]

/-- In a cycle the unit sends the next commands into the pipeline or waits. -/
theorem rest_iff (w : Unit R X E) (gate outReady : Bool) (rest : List E) :
    Rest S w.req w.pos rest ↔ ∃ rest', Rest S w.req (w.nextPos S gate outReady) rest' ∧
      rest = (enqFire (w.offered S gate) w.pipe outReady).toList ++ rest' := by
  cases hdead : S.dead w.req with
  | true =>
    have none : w.offered S gate = none := by simp [offered, hdead]
    cases hpos : w.pos <;> simp [nextPos, hdead, none, enqFire, Rest]
  | false =>
    cases hpos : w.pos with
    | none => simp [nextPos, offered, hdead, hpos, enqFire, Rest]
    | some x =>
      by_cases advances : (enqFire (w.offered S gate) w.pipe outReady).isSome ∨
          w.passes S = true
      · have moves : w.nextPos S gate outReady = S.step w.req x := by
          simp [nextPos, hdead, advances, hpos]
        -- the command that enters the pipeline is the one of the position
        have enters : enqFire (w.offered S gate) w.pipe outReady = S.emit w.req x := by
          rcases advances with enters | skipped
          · simp only [enqFire, offered, hpos, hdead] at enters ⊢
            split at enters
            · cases enters
            · rename_i free
              rw [if_neg free]
              split at enters
              · rename_i open'
                rw [if_pos open']
                rfl
              · cases enters
          · have noCmd : S.emit w.req x = none := by
              simpa [passes, hpos] using skipped
            simp [enqFire, offered, hpos, noCmd]
        rw [rest_some_iff hdead, moves, enters]
      · have stays : w.nextPos S gate outReady = some x := by
          simp [nextPos, hdead, advances, hpos]
        have waits : enqFire (w.offered S gate) w.pipe outReady = none := by
          simpa using fun h => advances (.inl h)
        simp [stays, waits]

theorem Owes.next (h : w.Owes S handed) (stage : w.pipe ≠ []) (gate outReady : Bool) :
    (w.next S gate outReady none).Owes S
      (handed ++ (deqFire w.pipe outReady).toList) := by
  have flow := conserved (w.offered S gate) stage outReady
  -- the pipeline keeps the order, so the three parts only shift
  have shift : ∀ rest, handed ++ (deqFire w.pipe outReady).toList ++
        held (w.next S gate outReady none).pipe ++ rest =
      handed ++ held w.pipe ++
        ((enqFire (w.offered S gate) w.pipe outReady).toList ++ rest) := by
    intro rest
    simp only [Unit.next, List.append_assoc]
    rw [← List.append_assoc (deqFire w.pipe outReady).toList, ← flow, List.append_assoc]
  refine ⟨?_, ?_, ?_⟩
  · intro rest hrest
    rw [shift]
    exact h.total _ ((rest_iff w gate outReady _).mpr ⟨rest, hrest, rfl⟩)
  · intro es total
    obtain ⟨rest, hrest, rfl⟩ := h.rest es total
    obtain ⟨rest', hrest', rfl⟩ := (rest_iff w gate outReady rest).mp hrest
    exact ⟨rest', hrest', (shift rest').symm⟩
  · intro e mem
    have parts := shift []
    rw [List.append_nil, List.append_nil] at parts
    rw [parts, List.mem_append] at mem
    rcases mem with old | new
    · exact h.made e old
    · -- the command that enters is the one of the position
      have enters := Option.mem_toList.mp new
      simp only [enqFire, offered] at enters
      split at enters
      · cases enters
      · split at enters
        · obtain ⟨x, _, emits⟩ := Option.bind_eq_some_iff.mp enters
          exact ⟨x, emits⟩
        · cases enters

theorem owes_start (idle : w.idle = true) (stage : w.pipe ≠ []) (gate outReady : Bool) (r : R) :
    (w.next S gate outReady (some r)).Owes S [] := by
  have still : held (w.next S gate outReady (some r)).pipe = [] :=
    held_next_of_idle idle stage (some r)
  refine ⟨?_, ?_, ?_⟩
  · intro rest hrest
    rw [still]
    exact hrest
  · intro es total
    rw [still]
    exact ⟨es, total, rfl⟩
  · rw [still]
    simp

/-- An idle unit has handed out its whole request. -/
theorem Owes.total_of_idle (h : w.Owes S handed) (idle : w.idle = true) : Total S w.req handed := by
  obtain ⟨pos, empty⟩ := idle_iff.mp idle
  simpa [empty] using h.total [] (by rw [pos]; rfl)

/-- What a unit has handed out is the beginning of its request. -/
theorem Owes.beginning (h : w.Owes S handed) {es : List E} (total : Total S w.req es) :
    handed <+: es := by
  obtain ⟨rest, _, rfl⟩ := h.rest es total
  rw [List.append_assoc]
  exact List.prefix_append _ _

end Unit

end Lemmas

end Gemmini.Walker
