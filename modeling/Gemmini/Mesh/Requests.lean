import Gemmini.Lib.Ring
import Gemmini.Mesh.Wavefront

/-!
# Requests in flight

Requests are numbered as they are accepted, and the row counter counts the rows of the pending one.  The
results come out in order, so the head of each queue belongs to the request whose rows are coming out:
the number of rows to that request, the tag to the one before it.
-/

namespace Gemmini.Mesh

theorem wrappingAdd_eq {u n bound : ℕ} (hu : u < bound) (hn : n < bound) :
    wrappingAdd u n bound = (u + n) % bound := by
  unfold wrappingAdd
  split_ifs with single wraps
  · rw [show bound = 1 by omega, Nat.mod_one]
  · rw [Nat.mod_eq_sub_mod (by omega), Nat.mod_eq_of_lt (by omega)]
    omega
  · rw [Nat.mod_eq_of_lt (by omega)]

theorem wrappingAdd_mod {n k bound : ℕ} (hk : k < bound) :
    wrappingAdd (n % bound) k bound = (n + k) % bound := by
  rw [wrappingAdd_eq (Nat.mod_lt _ (Nat.zero_lt_of_lt hk)) hk, Nat.mod_add_mod]

/-! ### The tag queue as a list -/

namespace TagQueue

variable {α : Type} {n : ℕ}

def contents (n : ℕ) (q : TagQueue α) : List α := Ring.contents n q.regs q.raddr q.len

structure Wf (n : ℕ) (q : TagQueue α) : Prop where
  len : q.len ≤ n
  raddr : q.raddr < n
  waddr : q.waddr = (q.raddr + q.len) % n

variable {q : TagQueue α}

theorem ready_iff (wf : q.Wf n) : q.ready n = true ↔ (q.contents n).length < n := by
  have := wf.len
  simp only [ready, contents, Ring.length_contents, ne_eq, decide_eq_true_eq]
  omega

theorem deqValid_iff : q.deqValid = true ↔ q.contents n ≠ [] := by
  rw [← List.length_pos_iff_ne_nil, contents, Ring.length_contents]
  simp only [deqValid, ne_eq, decide_eq_true_eq]
  omega

theorem contents_eq_cons (wf : q.Wf n) (nonempty : q.deqValid = true) :
    ∃ rest, q.contents n = q.head :: rest := by
  obtain ⟨k, hk⟩ : ∃ k, q.len = k + 1 := by
    simp only [deqValid, ne_eq, decide_eq_true_eq] at nonempty
    exact ⟨q.len - 1, by omega⟩
  exact ⟨_, by rw [contents, hk, Ring.contents_succ wf.raddr]; rfl⟩

/-! A cycle writes behind the last element, then drops the first. -/

def push (n : ℕ) (q : TagQueue α) (x : α) : TagQueue α :=
  ⟨Function.update q.regs q.waddr x, q.raddr, wrappingAdd q.waddr 1 n, q.len + 1⟩

def pop (n : ℕ) (q : TagQueue α) (garbage : α → α) : TagQueue α :=
  ⟨Function.update q.regs q.raddr (garbage (q.regs q.raddr)), wrappingAdd q.raddr 1 n, q.waddr,
    q.len - 1⟩

theorem push_spec (two : 2 ≤ n) (wf : q.Wf n) (room : q.len < n) (x : α) :
    (q.push n x).Wf n ∧ (q.push n x).contents n = q.contents n ++ [x] := by
  refine ⟨⟨room, wf.raddr, ?_⟩, ?_⟩
  · show wrappingAdd q.waddr 1 n = (q.raddr + (q.len + 1)) % n
    rw [wf.waddr, wrappingAdd_mod (by omega), Nat.add_assoc]
  · show Ring.contents n (Function.update q.regs q.waddr x) q.raddr (q.len + 1) = _
    rw [wf.waddr, Ring.contents_push x room]
    rfl

theorem pop_spec (two : 2 ≤ n) (wf : q.Wf n) (nonempty : q.deqValid = true) (garbage : α → α) :
    (q.pop n garbage).Wf n ∧ (q.pop n garbage).contents n = (q.contents n).tail := by
  have := wf.len
  obtain ⟨k, hk⟩ : ∃ k, q.len = k + 1 := by
    simp only [deqValid, ne_eq, decide_eq_true_eq] at nonempty
    exact ⟨q.len - 1, by omega⟩
  have step : (q.pop n garbage).raddr = (q.raddr + 1) % n := wrappingAdd_eq wf.raddr (by omega)
  have len : (q.pop n garbage).len = k := by simp [pop, hk]
  refine ⟨⟨by omega, by rw [step]; exact Nat.mod_lt _ (by omega), ?_⟩, ?_⟩
  · rw [step, len, Nat.mod_add_mod]
    show q.waddr = _
    rw [wf.waddr, hk]
    congr 1
    omega
  · rw [contents, contents, step, len, hk, Ring.contents_succ wf.raddr, List.tail_cons]
    exact Ring.contents_pop _ wf.raddr (by omega)

theorem next_eq (garbage : α → α) (enq : Option α) (deq : Bool)
    (accepted : enq.isSome = true → q.ready n = true) :
    q.next n garbage enq deq =
      let written := match enq with
        | some x => q.push n x
        | none => q
      if q.deqValid && deq then written.pop n garbage else written := by
  cases enq with
  | none => by_cases taken : q.deqValid && deq <;> simp [next, pop, taken]
  | some x =>
    have room := accepted rfl
    by_cases taken : q.deqValid && deq <;> simp [next, push, pop, taken, room]

/-- One cycle of the queue on its contents: the head leaves if it is taken, an accepted element
joins at the end. -/
theorem next_spec (two : 2 ≤ n) (wf : q.Wf n) (garbage : α → α) (enq : Option α) (deq : Bool)
    (accepted : enq.isSome = true → q.ready n = true) :
    (q.next n garbage enq deq).Wf n ∧
      (q.next n garbage enq deq).contents n =
        (if deq then (q.contents n).tail else q.contents n) ++ enq.toList := by
  have idle : (q.deqValid && deq) = false →
      (if deq then (q.contents n).tail else q.contents n) = q.contents n := by
    intro h
    cases deq with
    | false => rfl
    | true =>
      have empty : ¬q.contents n ≠ [] := fun ne => by simp [deqValid_iff.mpr ne] at h
      simp [not_not.mp empty]
  rw [next_eq garbage enq deq accepted]
  cases enq with
  | none =>
    by_cases taken : q.deqValid && deq
    · obtain ⟨nonempty, rfl⟩ := Bool.and_eq_true_iff.mp taken
      simpa [nonempty] using pop_spec two wf nonempty garbage
    · simpa [taken, idle (by simpa using taken)] using wf
  | some x =>
    have room : q.len < n := by
      have := (ready_iff wf).mp (accepted rfl)
      rwa [contents, Ring.length_contents] at this
    obtain ⟨pushed, grown⟩ := push_spec two wf room x
    by_cases taken : q.deqValid && deq
    · obtain ⟨nonempty, rfl⟩ := Bool.and_eq_true_iff.mp taken
      have again : (q.push n x).deqValid = true := by simp [deqValid, push]
      obtain ⟨popped, shrunk⟩ := pop_spec two pushed again garbage
      simp only [nonempty, Bool.and_true, if_true, Option.toList_some]
      refine ⟨popped, ?_⟩
      rw [shrunk, grown, List.tail_append_of_ne_nil (deqValid_iff.mp nonempty)]
    · simp only [taken, Bool.false_eq_true, if_false, Option.toList_some]
      exact ⟨pushed, by rw [grown, idle (by simpa using taken)]⟩

end TagQueue

/-! ### The pending request -/

/-- A request for a product: no flush, and between one row and a whole block. -/
structure Req.Plain {Tag : Type} (P : DelayParams) (r : Req Tag) : Prop where
  flush : r.flush = 0
  pos : 1 ≤ r.totalRows
  le : r.totalRows ≤ P.blockSize

namespace Run

variable {P : DelayParams} {Tag : Type} {garbage : Tag} {accepts : Req Tag → Prop}
variable (τ : Run P garbage accepts)

/-- The requests accepted before cycle `t`. -/
def accepted : ℕ → List (Req Tag)
  | 0 => []
  | t + 1 => accepted t ++ ((τ.state t).reqFire (τ.input t)).toList

/-- How many requests had their last row enter before cycle `t`. -/
def finished : ℕ → ℕ
  | 0 => 0
  | t + 1 => finished t + if (τ.state t).lastFire then 1 else 0

structure Pending (t : ℕ) : Prop where
  plain : ∀ r ∈ τ.accepted t, r.Plain P
  matmulId : (τ.state t).matmulId = (τ.accepted t).length % P.matmuls
  finished : τ.finished t + (if (τ.state t).reqValid then 1 else 0) = (τ.accepted t).length
  req : (τ.state t).reqValid = true → (τ.accepted t)[τ.finished t]? = some (τ.state t).req
  counter : (τ.state t).reqValid = true → (τ.state t).fireCounter < (τ.state t).req.totalRows
  idle : (τ.state t).reqValid = false → (τ.state t).fireCounter = 0

variable {τ}

theorem reqFire_mem {t : ℕ} {r : Req Tag} (h : (τ.state t).reqFire (τ.input t) = some r) :
    accepts r ∧ (τ.state t).reqReady = true := by
  unfold State.reqFire at h
  split_ifs at h with ready
  exact ⟨τ.legal t r h, ready⟩

theorem accepted_mem {t : ℕ} {r : Req Tag} (h : r ∈ τ.accepted t) : accepts r := by
  induction t with
  | zero => cases h
  | succ t ih =>
    rcases List.mem_append.mp h with before | now
    · exact ih before
    · exact (reqFire_mem (Option.mem_toList.mp now)).1

theorem inputNextRow_valid {s : State P Tag} (h : s.inputNextRow = true) : s.reqValid = true := by
  simp only [State.inputNextRow, Bool.and_eq_true] at h
  exact h.1

namespace Pending

variable {t : ℕ}

theorem plainReq (h : τ.Pending t) (valid : (τ.state t).reqValid = true) :
    (τ.state t).req.Plain P :=
  h.plain _ (List.mem_of_getElem? (h.req valid))

theorem lastRow_eq (h : τ.Pending t) (valid : (τ.state t).reqValid = true) :
    (τ.state t).lastRow = (τ.state t).req.totalRows - 1 := by
  obtain ⟨_, pos, le⟩ := h.plainReq valid
  have room := le_two_pow_log2Up (P.blockSize + 1)
  unfold State.lastRow
  rw [show (τ.state t).req.totalRows + 2 ^ log2Up (P.blockSize + 1) - 1 =
    (τ.state t).req.totalRows - 1 + 2 ^ log2Up (P.blockSize + 1) by omega, Nat.add_mod_right,
    Nat.mod_eq_of_lt (by omega)]

theorem lastFire_iff (h : τ.Pending t) : (τ.state t).lastFire = true ↔
    (τ.state t).inputNextRow = true ∧
      (τ.state t).fireCounter + 1 = (τ.state t).req.totalRows := by
  simp only [State.lastFire, Bool.and_eq_true, beq_iff_eq]
  constructor
  · rintro ⟨counter, fires⟩
    have valid := inputNextRow_valid fires
    have := h.lastRow_eq valid
    have := (h.plainReq valid).pos
    exact ⟨fires, by omega⟩
  · rintro ⟨fires, counter⟩
    have := h.lastRow_eq (inputNextRow_valid fires)
    exact ⟨by omega, fires⟩

theorem nextFireCounter_eq (h : τ.Pending t) (valid : (τ.state t).reqValid = true) :
    (τ.state t).nextFireCounter =
      if (τ.state t).fireCounter + 1 = (τ.state t).req.totalRows then 0
      else (τ.state t).fireCounter + 1 := by
  have last := h.lastRow_eq valid
  have below := h.counter valid
  have le := (h.plainReq valid).le
  have room := le_two_pow_log2Up P.blockSize
  unfold State.nextFireCounter
  by_cases done : (τ.state t).fireCounter + 1 = (τ.state t).req.totalRows
  · rw [if_pos done]
    split_ifs
    · exact Nat.zero_mod _
    · rw [show (τ.state t).fireCounter - (τ.state t).lastRow = 0 by omega, Nat.zero_mod]
    · omega
  · rw [if_neg done, if_neg (by omega), if_neg (by omega)]
    exact Nat.mod_eq_of_lt (by omega)

theorem init : τ.Pending 0 where
  plain := by simp [accepted]
  matmulId := by simp [accepted, τ.init.matmulId]
  finished := by simp [accepted, Run.finished, τ.init.reqValid]
  req valid := by simp [τ.init.reqValid] at valid
  counter valid := by simp [τ.init.reqValid] at valid
  idle _ := τ.init.fireCounter

theorem next_accept (h : τ.Pending t) (plain : ∀ r, accepts r → r.Plain P) {r : Req Tag}
    (fires : (τ.state t).reqFire (τ.input t) = some r) : τ.Pending (t + 1) := by
  obtain ⟨legal, ready⟩ := reqFire_mem fires
  have accepted : τ.accepted (t + 1) = τ.accepted t ++ [r] := by simp [Run.accepted, fires]
  have state : τ.state (t + 1) = (τ.state t).next (τ.input t) garbage := τ.step t
  have valid' : (τ.state (t + 1)).reqValid = true := by rw [state]; simp [State.next, fires]
  have req' : (τ.state (t + 1)).req = r := by rw [state]; simp [State.next, fires]
  -- a request is only accepted when there is none, or with the last row of the one before
  have turn : τ.finished (t + 1) = (τ.accepted t).length := by
    have count := h.finished
    simp only [State.reqReady, Bool.and_eq_true, Bool.or_eq_true, Bool.not_eq_true'] at ready
    rcases ready.1.1 with none | last
    · have quiet : (τ.state t).lastFire = false := by
        simp [State.lastFire, State.inputNextRow, none]
      simpa [Run.finished, quiet, none] using count
    · have valid := inputNextRow_valid (h.lastFire_iff.mp last).1
      simpa [Run.finished, last, valid] using count
  have counter' : (τ.state (t + 1)).fireCounter = 0 := by
    rw [state]
    simp only [State.next]
    simp only [State.reqReady, Bool.and_eq_true, Bool.or_eq_true, Bool.not_eq_true'] at ready
    rcases ready.1.1 with none | last
    · rw [if_neg (by simp [State.inputNextRow, none])]
      exact h.idle none
    · obtain ⟨enters, done⟩ := h.lastFire_iff.mp last
      rw [if_pos enters, h.nextFireCounter_eq (inputNextRow_valid enters), if_pos done]
  exact
    { plain := by
        intro x hx
        rw [accepted, List.mem_append, List.mem_singleton] at hx
        rcases hx with old | rfl
        · exact h.plain x old
        · exact plain x legal
      matmulId := by
        have five := P.matmuls_ge
        rw [state, accepted, List.length_append, List.length_singleton]
        simp only [State.next, fires, Option.isSome_some, if_true, h.matmulId]
        rw [wrappingAdd_mod (by omega)]
      finished := by simp [turn, valid', accepted]
      req := fun _ => by rw [turn, accepted, req', List.getElem?_concat_length]
      counter := fun _ => by rw [counter', req']; exact (plain r legal).pos
      idle := fun none => by simp [valid'] at none }

theorem next_wait (h : τ.Pending t) (waits : (τ.state t).reqFire (τ.input t) = none) :
    τ.Pending (t + 1) := by
  have accepted : τ.accepted (t + 1) = τ.accepted t := by simp [Run.accepted, waits]
  have state : τ.state (t + 1) = (τ.state t).next (τ.input t) garbage := τ.step t
  have matmulId : (τ.state (t + 1)).matmulId = (τ.accepted (t + 1)).length % P.matmuls := by
    rw [state, accepted, ← h.matmulId]
    simp [State.next, waits]
  have plain : ∀ r ∈ τ.accepted (t + 1), r.Plain P := by rw [accepted]; exact h.plain
  cases last : (τ.state t).lastFire with
  | true =>
    obtain ⟨enters, done⟩ := h.lastFire_iff.mp last
    have valid := inputNextRow_valid enters
    have gone : (τ.state (t + 1)).reqValid = false := by
      rw [state]
      simp [State.next, waits, last, (h.plainReq valid).flush]
    have counter : (τ.state (t + 1)).fireCounter = 0 := by
      rw [state]
      simp only [State.next, enters, if_true]
      rw [h.nextFireCounter_eq valid, if_pos done]
    have count := h.finished
    rw [valid] at count
    exact
      { plain, matmulId
        finished := by simpa [Run.finished, last, gone, accepted] using count
        req := fun still => by simp [gone] at still
        counter := fun still => by simp [gone] at still
        idle := fun _ => counter }
  | false =>
    have valid : (τ.state (t + 1)).reqValid = (τ.state t).reqValid := by
      rw [state]
      simp [State.next, waits, last]
    have req : (τ.state (t + 1)).req = (τ.state t).req := by
      rw [state]
      simp [State.next, waits, last]
    have finished : τ.finished (t + 1) = τ.finished t := by simp [Run.finished, last]
    have counter : (τ.state (t + 1)).fireCounter =
        if (τ.state t).inputNextRow then (τ.state t).fireCounter + 1
        else (τ.state t).fireCounter := by
      rw [state]
      simp only [State.next]
      split_ifs with enters
      · rw [h.nextFireCounter_eq (inputNextRow_valid enters), if_neg]
        intro done
        rw [h.lastFire_iff.mpr ⟨enters, done⟩] at last
        cases last
      · rfl
    exact
      { plain, matmulId
        finished := by rw [finished, valid, accepted]; exact h.finished
        req := by rw [finished, valid, accepted, req]; exact h.req
        counter := by
          intro still
          rw [valid] at still
          have below := h.counter still
          rw [counter, req]
          split_ifs with enters
          · have : (τ.state t).fireCounter + 1 ≠ (τ.state t).req.totalRows := fun done => by
              rw [h.lastFire_iff.mpr ⟨enters, done⟩] at last
              cases last
            omega
          · exact below
        idle := by
          intro none
          rw [valid] at none
          rw [counter, if_neg (by simp [State.inputNextRow, none])]
          exact h.idle none }

theorem next (h : τ.Pending t) (plain : ∀ r, accepts r → r.Plain P) : τ.Pending (t + 1) := by
  cases fires : (τ.state t).reqFire (τ.input t) with
  | none => exact h.next_wait fires
  | some r => exact h.next_accept plain fires

end Pending

theorem pending (plain : ∀ r, accepts r → r.Plain P) (t : ℕ) : τ.Pending t := by
  induction t with
  | zero => exact Pending.init
  | succ t ih => exact ih.next plain

/-! ### One dataflow -/

section Dataflow

variable {m : Dataflow} (only : ∀ r, accepts r → r.control.dataflow = m)

include only in
theorem dataflow_next {t : ℕ} (h : (τ.state t).req.control.dataflow = m) :
    (τ.state (t + 1)).req.control.dataflow = m := by
  rw [τ.step]
  show ((State.next (τ.state t) (τ.input t) garbage).req).control.dataflow = m
  unfold State.next
  cases fires : (τ.state t).reqFire (τ.input t) with
  | some r => exact only r (reqFire_mem fires).1
  | none =>
    dsimp only
    split_ifs <;> exact h

include only in
theorem dataflow_of_valid (t : ℕ) (valid : (τ.state t).reqValid = true) :
    (τ.state t).req.control.dataflow = m := by
  induction t with
  | zero => rw [τ.init.reqValid] at valid; cases valid
  | succ t ih =>
    by_cases before : (τ.state t).reqValid = true
    · exact dataflow_next only (ih before)
    · have idle : (τ.state t).lastFire = false := by
        by_contra last
        rw [Bool.not_eq_false, State.lastFire, Bool.and_eq_true] at last
        exact before (inputNextRow_valid last.2)
      rw [τ.step] at valid ⊢
      change (State.next (τ.state t) (τ.input t) garbage).reqValid = true at valid
      show ((State.next (τ.state t) (τ.input t) garbage).req).control.dataflow = m
      unfold State.next at valid ⊢
      cases fires : (τ.state t).reqFire (τ.input t) with
      | some r => exact only r (reqFire_mem fires).1
      | none =>
        simp only [fires, idle, Bool.false_eq_true, if_false] at valid
        exact absurd valid before

include only in
theorem dataflow_kept {t : ℕ} (valid : (τ.state t).reqValid = true) (u : ℕ) (later : t ≤ u) :
    (τ.state u).req.control.dataflow = m := by
  induction u, later using Nat.le_induction with
  | base => exact dataflow_of_valid only t valid
  | succ u _ ih => exact dataflow_next only ih

end Dataflow

/-! ### The queues -/

theorem accepted_mono {s t : ℕ} (le : s ≤ t) : τ.accepted s <+: τ.accepted t := by
  induction t, le using Nat.le_induction with
  | base => exact List.prefix_refl _
  | succ t _ ih => exact ih.trans (List.prefix_append _ _)

theorem finished_mono {s t : ℕ} (le : s ≤ t) : τ.finished s ≤ τ.finished t := by
  induction t, le using Nat.le_induction with
  | base => exact le_rfl
  | succ t _ ih => exact ih.trans (Nat.le_add_right _ _)

theorem finished_le_accepted (plain : ∀ r, accepts r → r.Plain P) (t : ℕ) :
    τ.finished t ≤ (τ.accepted t).length := by
  have := (pending (τ := τ) plain t).finished
  omega

variable (τ) in
/-- How many rows of request number `k` entered before cycle `t`. -/
def rowsOf (k : ℕ) : ℕ → ℕ
  | 0 => 0
  | t + 1 => rowsOf k t + if τ.fire t = true ∧ τ.finished t = k then 1 else 0

theorem rowsOf_of_lt {k t : ℕ} (h : τ.finished t < k) : τ.rowsOf k t = 0 := by
  induction t with
  | zero => rfl
  | succ t ih =>
    have earlier : τ.finished t < k := (finished_mono (Nat.le_succ t)).trans_lt h
    rw [rowsOf, ih earlier, if_neg (by omega)]

theorem rowsOf_finished (plain : ∀ r, accepts r → r.Plain P) (t : ℕ) :
    τ.rowsOf (τ.finished t) t = (τ.state t).fireCounter := by
  induction t with
  | zero => exact τ.init.fireCounter.symm
  | succ t ih =>
    have pend := pending (τ := τ) plain t
    have step : (τ.state (t + 1)).fireCounter =
        if τ.fire t then (τ.state t).nextFireCounter else (τ.state t).fireCounter := by
      rw [τ.step]
      rfl
    have count : τ.finished (t + 1) = τ.finished t + if (τ.state t).lastFire then 1 else 0 := rfl
    have last := pend.lastFire_iff
    change _ ↔ τ.fire t = true ∧ _ at last
    by_cases fires : τ.fire t = true
    · rw [step, if_pos fires, pend.nextFireCounter_eq (inputNextRow_valid fires)]
      by_cases done : (τ.state t).fireCounter + 1 = (τ.state t).req.totalRows
      · rw [if_pos done, count, if_pos (last.mpr ⟨fires, done⟩), rowsOf,
          rowsOf_of_lt (Nat.lt_succ_self _), if_neg (by omega)]
      · rw [if_neg done, count, if_neg (fun h => done (last.mp h).2), Nat.add_zero, rowsOf, ih,
          if_pos ⟨fires, rfl⟩]
    · rw [step, if_neg fires, count, if_neg (fun h => fires (last.mp h).1), Nat.add_zero, rowsOf, ih,
        if_neg (fun h => fires h.1), Nat.add_zero]

variable (τ) in
def entries {β : Type} (f : ℕ → Req Tag → β) (t : ℕ) : List β := (τ.accepted t).mapIdx f

theorem entries_succ {β : Type} (f : ℕ → Req Tag → β) (t : ℕ) : τ.entries f (t + 1) =
    τ.entries f t ++
      (((τ.state t).reqFire (τ.input t)).map (f (τ.accepted t).length)).toList := by
  show (τ.accepted t ++ ((τ.state t).reqFire (τ.input t)).toList).mapIdx f = _
  cases (τ.state t).reqFire (τ.input t) with
  | none => simp [entries]
  | some r => simp [entries, List.mapIdx_append]

theorem drop_entries {β : Type} (f : ℕ → Req Tag → β) {t n : ℕ} {r : Req Tag}
    (h : (τ.accepted t)[n]? = some r) :
    (τ.entries f t).drop n = f n r :: (τ.entries f t).drop (n + 1) := by
  obtain ⟨bound, rfl⟩ := List.getElem?_eq_some_iff.mp h
  rw [List.drop_eq_getElem_cons (by simpa [entries] using bound)]
  simp [entries]

theorem enqueued_eq (plain : ∀ r, accepts r → r.Plain P) (t : ℕ) :
    (τ.state t).enqueued (τ.input t) = (τ.state t).reqFire (τ.input t) := by
  unfold State.enqueued
  cases fires : (τ.state t).reqFire (τ.input t) with
  | none => rfl
  | some r => simp [Option.filter, (plain r (reqFire_mem fires).1).flush]

theorem mark_of_valid (plain : ∀ r, accepts r → r.Plain P) {t : ℕ}
    (valid : (τ.state t).mark.valid = true) :
    ∃ s, t = s + P.depth ∧ τ.fire s = true ∧
      (τ.accepted t)[τ.finished (t - P.depth)]? = some (τ.state s).req ∧
      (τ.state t).mark.id = (τ.finished (t - P.depth) + 1) % P.matmuls ∧
      (τ.state t).mark.last = (τ.state s).lastFire := by
  rcases Nat.lt_or_ge t P.depth with early | late
  · rw [mark_quiet τ early] at valid
    cases valid
  · obtain ⟨s, rfl⟩ : ∃ s, t = s + P.depth := ⟨t - P.depth, by omega⟩
    have mark := τ.mark_wave s
    rw [mark] at valid
    have pend := pending (τ := τ) plain s
    have reqValid := inputNextRow_valid valid
    have count := pend.finished
    rw [reqValid, if_pos rfl] at count
    refine ⟨s, rfl, valid, ?_, ?_, by rw [mark]⟩
    · rw [Nat.add_sub_cancel]
      obtain ⟨rest, hrest⟩ := accepted_mono (τ := τ) (Nat.le_add_right s P.depth)
      rw [← hrest, List.getElem?_append_left (by omega)]
      exact pend.req reqValid
    · rw [Nat.add_sub_cancel, mark, count, pend.matmulId]

/-- The queues hold what is left of the accepted requests, with the tags one request behind. -/
structure Queues (τ : Run P garbage accepts) (t : ℕ) : Prop where
  totalRows : (τ.state t).totalRowsQ =
    (τ.entries (fun j r => ⟨r.totalRows, (j + 1) % P.matmuls⟩) t).drop (τ.finished (t - P.depth))
  wf : (τ.state t).tagq.Wf P.tagqlen
  tags : (τ.state t).tagq.contents P.tagqlen =
    (τ.entries (fun j r => ⟨r.tag, (j + 2) % P.matmuls⟩) t).drop (τ.finished (t - P.depth) - 1)

namespace Queues

variable {t : ℕ}

theorem init : τ.Queues 0 where
  totalRows := by simp [entries, accepted, τ.init.totalRowsQ]
  wf := ⟨by simp [τ.init.tagqLen], by simp [τ.init.tagqRaddr, DelayParams.tagqlen],
    by simp [τ.init.tagqWaddr, τ.init.tagqRaddr, τ.init.tagqLen]⟩
  tags := by simp [entries, accepted, TagQueue.contents, τ.init.tagqLen]

variable (h : τ.Queues t) (plain : ∀ r, accepts r → r.Plain P)

include h plain in
theorem totalRows_head (valid : (τ.state t).mark.valid = true) :
    ∃ s rest, t = s + P.depth ∧ τ.fire s = true ∧ (τ.state t).mark.last = (τ.state s).lastFire ∧
      (τ.state t).totalRowsQ = ⟨(τ.state s).req.totalRows, (τ.state t).mark.id⟩ :: rest := by
  obtain ⟨s, time, fires, req, id, last⟩ := mark_of_valid plain valid
  have entry := h.totalRows
  rw [drop_entries _ req, ← id] at entry
  exact ⟨s, _, time, fires, last, entry⟩

theorem finished_next (t : ℕ) : τ.finished (t + 1 - P.depth) =
    τ.finished (t - P.depth) + if (τ.state t).mark.valid && (τ.state t).mark.last then 1 else 0 := by
  rcases Nat.lt_or_ge t P.depth with early | late
  · rw [mark_quiet τ early, show t + 1 - P.depth = 0 by omega, show t - P.depth = 0 by omega]
    simp
  · obtain ⟨s, rfl⟩ : ∃ s, t = s + P.depth := ⟨t - P.depth, by omega⟩
    rw [τ.mark_wave s, show s + P.depth + 1 - P.depth = s + 1 by omega, Nat.add_sub_cancel]
    show τ.finished s + (if (τ.state s).lastFire then 1 else 0) = _
    congr 2
    simp only [fire, State.lastFire]
    cases (τ.state s).inputNextRow <;> simp

theorem depth_pos : 0 < P.depth := by
  have := P.meshRows_pos
  have := P.meshColumns_pos
  have : 0 < (P.meshRows + P.meshColumns - 1) * P.stages :=
    Nat.mul_pos (by omega) (Nat.succ_pos _)
  unfold DelayParams.depth
  omega

include plain

theorem finished_le (t : ℕ) :
    τ.finished (t + 1 - P.depth) ≤ (τ.accepted t).length := by
  have := depth_pos (P := P)
  exact (finished_mono (by omega)).trans (finished_le_accepted plain t)

include h

theorem totalRows_next :
    (τ.state (t + 1)).totalRowsQ =
      (τ.entries (fun j r => ⟨r.totalRows, (j + 1) % P.matmuls⟩) (t + 1)).drop
        (τ.finished (t + 1 - P.depth)) := by
  have five := P.matmuls_ge
  have current : (τ.state t).idOfCurrent = ((τ.accepted t).length + 1) % P.matmuls := by
    rw [State.idOfCurrent, (pending plain t).matmulId, wrappingAdd_mod (by omega)]
  have step : (τ.state (t + 1)).totalRowsQ =
      (if (τ.state t).mark.valid && (τ.state t).mark.last && (τ.state t).totalRowsMatches then
        (τ.state t).totalRowsQ.tail else (τ.state t).totalRowsQ) ++
      (((τ.state t).reqFire (τ.input t)).map fun r =>
        ⟨r.totalRows, ((τ.accepted t).length + 1) % P.matmuls⟩).toList := by
    rw [τ.step, ← enqueued_eq plain, ← current]
    rfl
  rw [step, entries_succ, List.drop_append_of_le_length
    (by simpa [entries] using finished_le plain t), finished_next]
  congr 1
  by_cases through : ((τ.state t).mark.valid && (τ.state t).mark.last) = true
  · obtain ⟨s, rest, _, _, _, head⟩ :=
      h.totalRows_head plain (Bool.and_eq_true_iff.mp through).1
    have matching : (τ.state t).totalRowsMatches = true := by
      simp [State.totalRowsMatches, head]
    rw [matching, Bool.and_true, if_pos through, if_pos through, h.totalRows, List.tail_drop]
  · rw [if_neg through, if_neg (by simp_all), h.totalRows, Nat.add_zero]

theorem tag_head (valid : (τ.state t).mark.valid = true) :
    (τ.state t).tagq.deqValid = true ∧ ∃ r,
      (τ.accepted t)[τ.finished (t - P.depth) - 1]? = some r ∧
        (τ.state t).tagq.head =
          ⟨r.tag, (τ.finished (t - P.depth) - 1 + 2) % P.matmuls⟩ := by
  obtain ⟨s, _, _, req, _, _⟩ := mark_of_valid plain valid
  have bound := (List.getElem?_eq_some_iff.mp req).1
  obtain ⟨r, hr⟩ : ∃ r, (τ.accepted t)[τ.finished (t - P.depth) - 1]? = some r :=
    ⟨_, List.getElem?_eq_getElem (by omega)⟩
  have contents := h.tags
  rw [drop_entries _ hr] at contents
  have nonempty : (τ.state t).tagq.deqValid = true := by
    rw [TagQueue.deqValid_iff (n := P.tagqlen), contents]
    exact List.cons_ne_nil _ _
  obtain ⟨rest, cons⟩ := TagQueue.contents_eq_cons h.wf nonempty
  rw [contents] at cons
  exact ⟨nonempty, r, hr, (List.cons.inj cons).1.symm⟩

theorem tagMatches_iff (valid : (τ.state t).mark.valid = true) :
    (τ.state t).tagMatches = true ↔ 0 < τ.finished (t - P.depth) := by
  obtain ⟨s, _, _, _, id, _⟩ := mark_of_valid plain valid
  obtain ⟨_, r, _, head⟩ := h.tag_head plain valid
  have five := P.matmuls_ge
  rw [State.tagMatches, beq_iff_eq, id, head]
  constructor
  · intro same
    by_contra zero
    have one : (0 + 1) % P.matmuls = 1 := Nat.mod_eq_of_lt (by omega)
    have two : (0 - 1 + 2) % P.matmuls = 2 := Nat.mod_eq_of_lt (by omega)
    rw [show τ.finished (t - P.depth) = 0 by omega, one] at same
    exact absurd (same.trans two) (by decide)
  · intro pos
    rw [show τ.finished (t - P.depth) - 1 + 2 = τ.finished (t - P.depth) + 1 by omega]

theorem tags_next (stationary : ∀ r, accepts r → r.control.dataflow = .ws) :
    (τ.state (t + 1)).tagq.Wf P.tagqlen ∧ (τ.state (t + 1)).tagq.contents P.tagqlen =
      (τ.entries (fun j r => ⟨r.tag, (j + 2) % P.matmuls⟩) (t + 1)).drop
        (τ.finished (t + 1 - P.depth) - 1) := by
  have five := P.matmuls_ge
  have offered : ((τ.state t).enqueued (τ.input t)).map
      (fun r => (⟨r.tag, (τ.state t).idOfOutput r⟩ : Tagged Tag)) =
      ((τ.state t).reqFire (τ.input t)).map
        (fun r => ⟨r.tag, ((τ.accepted t).length + 2) % P.matmuls⟩) := by
    rw [enqueued_eq plain]
    cases fires : (τ.state t).reqFire (τ.input t) with
    | none => rfl
    | some r =>
      have ws := stationary r (reqFire_mem fires).1
      simp only [Option.map_some, State.idOfOutput, ws, reduceCtorEq, if_false,
        (pending plain t).matmulId]
      rw [wrappingAdd_mod (by omega)]
  obtain ⟨wf, contents⟩ := TagQueue.next_spec (show 2 ≤ P.tagqlen by unfold DelayParams.tagqlen; omega)
    h.wf (fun x => { x with value := garbage })
    (((τ.state t).enqueued (τ.input t)).map fun r => ⟨r.tag, (τ.state t).idOfOutput r⟩)
    ((τ.state t).mark.valid && (τ.state t).mark.last && (τ.state t).tagMatches) fun some => by
    rw [offered, Option.isSome_map] at some
    obtain ⟨r, fires⟩ := Option.isSome_iff_exists.mp some
    have ready := (reqFire_mem fires).2
    simp only [State.reqReady, Bool.and_eq_true] at ready
    exact ready.1.2
  rw [τ.step]
  refine ⟨wf, contents.trans ?_⟩
  rw [offered, entries_succ, List.drop_append_of_le_length
    (by have := finished_le (τ := τ) plain t; simp only [entries, List.length_mapIdx]; omega)]
  congr 1
  rw [h.tags, finished_next]
  by_cases through : ((τ.state t).mark.valid && (τ.state t).mark.last) = true
  · have matching := h.tagMatches_iff plain (Bool.and_eq_true_iff.mp through).1
    rw [through, Bool.true_and, if_pos rfl]
    by_cases first : 0 < τ.finished (t - P.depth)
    · rw [matching.mpr first, if_pos rfl, List.tail_drop]
      congr 1
      omega
    · have silent : (τ.state t).tagMatches = false := by
        simpa using fun h => first (matching.mp h)
      rw [silent, if_neg (by decide)]
      congr 1
      omega
  · rw [if_neg (by simp_all), if_neg through, Nat.add_zero]

theorem next (stationary : ∀ r, accepts r → r.control.dataflow = .ws) : τ.Queues (t + 1) :=
  ⟨h.totalRows_next plain, (h.tags_next plain stationary).1, (h.tags_next plain stationary).2⟩

end Queues

theorem queues (plain : ∀ r, accepts r → r.Plain P)
    (stationary : ∀ r, accepts r → r.control.dataflow = .ws) (t : ℕ) : τ.Queues t := by
  induction t with
  | zero => exact Queues.init
  | succ t ih => exact ih.next plain stationary

end Run

end Gemmini.Mesh
