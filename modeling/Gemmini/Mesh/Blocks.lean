import Gemmini.Mesh.OutputStationary

/-!
# Blocks of results

Requests of the output-stationary dataflow send a whole block of rows; those that toggle `propagate`
turn the registers around.  Between two such requests the products are added up.
-/

namespace Gemmini.Mesh

open Finset

/-- A block in the output-stationary dataflow; a flush is one without operands. -/
structure Req.Os {Tag : Type} (P : DelayParams) (r : Req Tag) : Prop where
  os : r.control.dataflow = .os
  whole : r.totalRows = P.blockSize

namespace Run

variable {P : DelayParams} {Tag : Type} {garbage : Tag} {τ : Run P garbage (Req.Os P)}

/-! ### The pending request -/

theorem next_state (t : ℕ) : τ.state (t + 1) = (τ.state t).next (τ.input t) garbage := τ.step t

theorem req_latest {t : ℕ} {r : Req Tag} (latest : (τ.accepted t).getLast? = some r) :
    (τ.state t).req.control = r.control ∧ (τ.state t).req.totalRows = r.totalRows := by
  induction t generalizing r with
  | zero => simp [accepted] at latest
  | succ t ih =>
    rw [accepted] at latest
    rw [next_state]
    unfold State.next
    cases fires : (τ.state t).reqFire (τ.input t) with
    | some r' =>
      obtain rfl : r' = r := by simpa [fires] using latest
      exact ⟨rfl, rfl⟩
    | none =>
      have before := ih (by simpa [fires] using latest)
      dsimp only
      split_ifs <;> exact before

/-- The `propagate` bit of the rows after the given requests. -/
def parity (rs : List (Req Tag)) : Bool := rs.foldl (fun q r => r.control.propagate ^^ q) false

theorem parity_concat (rs : List (Req Tag)) (r : Req Tag) :
    parity (rs ++ [r]) = (r.control.propagate ^^ parity rs) := by
  simp [parity]

theorem inProp_eq (t : ℕ) : (τ.state t).inProp = parity (τ.accepted t) := by
  induction t with
  | zero => exact τ.init.inProp
  | succ t ih =>
    rw [accepted, next_state]
    unfold State.next
    cases fires : (τ.state t).reqFire (τ.input t) with
    | some r => simp [parity_concat, ih]
    | none => simpa using ih

theorem accepted_ne_nil {t : ℕ} (valid : (τ.state t).reqValid = true) : τ.accepted t ≠ [] := by
  induction t with
  | zero => rw [τ.init.reqValid] at valid; cases valid
  | succ t ih =>
    rw [next_state] at valid
    rw [accepted]
    unfold State.next at valid
    cases fires : (τ.state t).reqFire (τ.input t) with
    | some r => simp
    | none =>
      simp only [fires] at valid
      have before : (τ.state t).reqValid = true := by
        split_ifs at valid with last
        · rw [State.lastFire, Bool.and_eq_true] at last
          exact inputNextRow_valid last.2
        · exact valid
      simpa using ih before

theorem totalRows_eq {t : ℕ} (valid : (τ.state t).reqValid = true) :
    (τ.state t).req.totalRows = P.blockSize := by
  obtain ⟨r, latest⟩ : ∃ r, (τ.accepted t).getLast? = some r :=
    Option.isSome_iff_exists.mp (by simpa using accepted_ne_nil valid)
  rw [(req_latest latest).2]
  exact (accepted_mem (List.mem_of_getLast? latest)).whole

/-! ### The rows of a request -/

variable (τ) in
/-- The cycles before `t` in which a row of request number `k` entered, the latest first. -/
def timesOf (k t : ℕ) : List ℕ := τ.times (fun u => (τ.accepted u).length = k + 1) t

theorem length_timesOf_succ (k t : ℕ) : (τ.timesOf k (t + 1)).length =
    (τ.timesOf k t).length + if τ.fire t = true ∧ (τ.accepted t).length = k + 1 then 1 else 0 := by
  rw [timesOf, times]
  cases τ.fire t with
  | false => simp [timesOf]
  | true =>
    by_cases this : (τ.accepted t).length = k + 1
    · simp [timesOf, this]
    · simp [timesOf, this]

theorem lastRow_os {t : ℕ} (valid : (τ.state t).reqValid = true) :
    (τ.state t).lastRow = P.blockSize - 1 := by
  have two : 2 ≤ P.blockSize := P.two_le
  have room := le_two_pow_log2Up (P.blockSize + 1)
  rw [State.lastRow, totalRows_eq valid, show P.blockSize + 2 ^ log2Up (P.blockSize + 1) - 1 =
    P.blockSize - 1 + 2 ^ log2Up (P.blockSize + 1) by omega, Nat.add_mod_right,
    Nat.mod_eq_of_lt (by omega)]

/-- A request is not followed by another before it has sent a whole block. -/
structure Progress (τ : Run P garbage (Req.Os P)) (t : ℕ) : Prop where
  counter : (τ.state t).fireCounter < P.blockSize
  pending : (τ.state t).reqValid = true →
    (τ.state t).fireCounter ≤ (τ.timesOf ((τ.accepted t).length - 1) t).length
  idle : (τ.state t).reqValid = false → (τ.state t).fireCounter = 0 ∧
    (0 < (τ.accepted t).length → P.blockSize ≤ (τ.timesOf ((τ.accepted t).length - 1) t).length)
  done : ∀ k, k + 2 ≤ (τ.accepted t).length → P.blockSize ≤ (τ.timesOf k t).length

theorem Progress.next {t : ℕ} (h : τ.Progress t) : τ.Progress (t + 1) := by
  have two : 2 ≤ P.blockSize := P.two_le
  have bound := h.counter
  have rows : ∀ k, (τ.timesOf k t).length ≤ (τ.timesOf k (t + 1)).length := fun k => by
    rw [length_timesOf_succ]; omega
  have counter' : (τ.state (t + 1)).fireCounter = if τ.fire t = true then
      if (τ.state t).fireCounter = P.blockSize - 1 then 0 else (τ.state t).fireCounter + 1
      else (τ.state t).fireCounter := by
    have room := le_two_pow_log2Up P.blockSize
    rw [next_state]
    show (if τ.fire t = true then (τ.state t).nextFireCounter else _) = _
    by_cases fires : τ.fire t = true
    · rw [if_pos fires, if_pos fires, State.nextFireCounter, lastRow_os (inputNextRow_valid fires),
        if_neg (by omega)]
      split_ifs
      · rw [show (τ.state t).fireCounter - (P.blockSize - 1) = 0 by omega, Nat.zero_mod]
      · omega
      · omega
      · exact Nat.mod_eq_of_lt (by omega)
    · rw [if_neg fires, if_neg fires]
  have last : (τ.state t).lastFire = true ↔
      τ.fire t = true ∧ (τ.state t).fireCounter = P.blockSize - 1 := by
    rw [State.lastFire, Bool.and_eq_true, beq_iff_eq]
    constructor
    · rintro ⟨counter, fires⟩
      exact ⟨fires, by rw [counter, lastRow_os (inputNextRow_valid fires)]⟩
    · rintro ⟨fires, counter⟩
      exact ⟨by rw [counter, lastRow_os (inputNextRow_valid fires)], fires⟩
  have requested : τ.fire t = true → 0 < (τ.accepted t).length := fun fires =>
    List.length_pos_of_ne_nil (accepted_ne_nil (inputNextRow_valid fires))
  have sent : τ.fire t = true → (τ.timesOf ((τ.accepted t).length - 1) (t + 1)).length =
      (τ.timesOf ((τ.accepted t).length - 1) t).length + 1 := by
    intro fires
    have := requested fires
    rw [length_timesOf_succ, if_pos ⟨fires, by omega⟩]
  -- the pending request has sent its block when it ends, and it is gone when there is none
  have ended : (τ.state t).lastFire = true ∨ (τ.state t).reqValid = false →
      (τ.state (t + 1)).fireCounter = 0 ∧ (0 < (τ.accepted t).length →
        P.blockSize ≤ (τ.timesOf ((τ.accepted t).length - 1) (t + 1)).length) := by
    rintro (ends | none)
    · obtain ⟨fires, counter⟩ := last.mp ends
      have := sent fires
      have := h.pending (inputNextRow_valid fires)
      rw [counter', if_pos fires, if_pos counter]
      exact ⟨rfl, fun _ => by omega⟩
    · have quiet : ¬τ.fire t = true := fun fires => by
        rw [inputNextRow_valid fires] at none
        cases none
      rw [counter', if_neg quiet]
      exact ⟨(h.idle none).1, fun some => ((h.idle none).2 some).trans (rows _)⟩
  cases fires : (τ.state t).reqFire (τ.input t) with
  | some r =>
    have len : (τ.accepted (t + 1)).length = (τ.accepted t).length + 1 := by
      simp [accepted, fires]
    have ready := (reqFire_mem fires).2
    simp only [State.reqReady, Bool.and_eq_true, Bool.or_eq_true, Bool.not_eq_true'] at ready
    obtain ⟨zero, whole⟩ := ended ready.1.1.symm
    have valid' : (τ.state (t + 1)).reqValid = true := by
      simp only [next_state, State.next, fires]
    refine ⟨by omega, fun _ => by omega, fun none => ?_, fun k hk => ?_⟩
    · rw [valid'] at none
      cases none
    · rcases Nat.eq_or_lt_of_le (show k + 1 ≤ (τ.accepted t).length by omega) with current | old
      · have := whole (by omega)
        rwa [← current, Nat.add_sub_cancel] at this
      · exact (h.done k old).trans (rows k)
  | none =>
    have same : τ.accepted (t + 1) = τ.accepted t := by simp [accepted, fires]
    have valid' : (τ.state (t + 1)).reqValid = if (τ.state t).lastFire then
        decide ((τ.state t).req.flush > 1) else (τ.state t).reqValid := by
      simp only [next_state, State.next, fires]
    refine ⟨?_, fun valid => ?_, fun none => ?_, fun k hk => ?_⟩
    · rw [counter']
      split_ifs <;> omega
    · by_cases ends : (τ.state t).lastFire = true
      · have := (ended (.inl ends)).1
        omega
      · have valid : (τ.state t).reqValid = true := by simpa [valid', ends] using valid
        have := h.pending valid
        rw [same, counter']
        by_cases enters : τ.fire t = true
        · rw [if_pos enters, if_neg (fun full => ends (last.mpr ⟨enters, full⟩)), sent enters]
          omega
        · rw [if_neg enters]
          exact this.trans (rows _)
    · rw [same]
      by_cases ends : (τ.state t).lastFire = true
      · exact ended (.inl ends)
      · exact ended (.inr (by simpa [valid', ends] using none))
    · rw [same] at hk
      exact (h.done k hk).trans (rows k)

theorem progress (t : ℕ) : τ.Progress t := by
  induction t with
  | zero =>
    have two : 2 ≤ P.blockSize := P.two_le
    exact ⟨by rw [τ.init.fireCounter]; omega, fun valid => by simp [τ.init.reqValid] at valid,
      fun _ => ⟨τ.init.fireCounter, fun some => by simp [accepted] at some⟩,
      fun k hk => by simp [accepted] at hk⟩
  | succ t ih => exact ih.next

/-! ### The cycles of a request -/

theorem accepted_take {u t : ℕ} (le : u ≤ t) :
    τ.accepted u = (τ.accepted t).take (τ.accepted u).length :=
  List.prefix_iff_eq_take.mp (accepted_mono le)

theorem length_accepted_mono {u t : ℕ} (le : u ≤ t) :
    (τ.accepted u).length ≤ (τ.accepted t).length :=
  (accepted_mono le).length_le

theorem length_accepted_succ (t : ℕ) :
    (τ.accepted (t + 1)).length ≤ (τ.accepted t).length + 1 := by
  rw [accepted, List.length_append]
  cases (τ.state t).reqFire (τ.input t) <;> simp

theorem exists_start {k t : ℕ} (h : k ≤ (τ.accepted t).length) :
    ∃ t₀ ≤ t, ∀ u, t₀ ≤ u ↔ k ≤ (τ.accepted u).length := by
  have some : ∃ u, k ≤ (τ.accepted u).length := ⟨t, h⟩
  refine ⟨Nat.find some, Nat.find_min' some h, fun u => ⟨fun later => ?_, Nat.find_min' some⟩⟩
  exact (Nat.find_spec some).trans (length_accepted_mono later)

theorem mem_times {p : ℕ → Bool} {t u : ℕ} :
    u ∈ τ.times p t ↔ u < t ∧ τ.fire u = true ∧ p u = true := by
  induction t with
  | zero => simp [times]
  | succ t ih =>
    rw [times, Nat.lt_succ_iff_lt_or_eq, or_comm, or_and_right]
    split_ifs with now <;> rw [Bool.and_eq_true] at now
    · rw [List.mem_cons, ih]
      exact or_congr_left ⟨fun here => ⟨here, here ▸ now⟩, And.left⟩
    · rw [ih]
      refine (or_iff_right ?_).symm
      rintro ⟨rfl, enters⟩
      exact now enters

theorem times_eq_since {p : ℕ → Bool} {t₀ t₁ t : ℕ} (le : t₁ ≤ t)
    (h : ∀ u < t, τ.fire u = true → (p u = true ↔ t₀ ≤ u ∧ u < t₁)) :
    τ.times p t = τ.since t₀ t₁ := by
  induction t, le using Nat.le_induction with
  | base =>
    refine times_congr fun u hu fires => ?_
    rw [Bool.eq_iff_iff, h u hu fires, decide_eq_true_eq]
    exact and_iff_left hu
  | succ t le ih =>
    have after : ¬(τ.fire t && p t) = true := by
      rw [Bool.and_eq_true]
      rintro ⟨fires, holds⟩
      have := (h t (Nat.lt_succ_self t) fires).mp holds
      omega
    rw [times, if_neg after]
    exact ih fun u hu => h u (by omega)

theorem parity_take {t k : ℕ} {r : Req Tag} (h : (τ.accepted t)[k]? = some r) :
    parity ((τ.accepted t).take (k + 1)) =
      (r.control.propagate ^^ parity ((τ.accepted t).take k)) := by
  obtain ⟨bound, rfl⟩ := List.getElem?_eq_some_iff.mp h
  rw [List.take_succ_eq_append_getElem bound, parity_concat]

theorem inProp_take {u t : ℕ} (le : u ≤ t) :
    (τ.state u).inProp = parity ((τ.accepted t).take (τ.accepted u).length) := by
  rw [inProp_eq, ← accepted_take le]

theorem resultShift_succ {t : ℕ} {r : Req Tag} (latest : (τ.accepted t).getLast? = some r) :
    (τ.state (t + 1)).resultShift = r.control.shift := by
  rw [next_state, ← (req_latest latest).1]
  rfl

/-! ### The block between two toggling requests -/

/-- In cycle `t` request `k` is pending; it toggles `propagate`, as `j` did before it and none in
between. -/
structure Flushes (τ : Run P garbage (Req.Os P)) (t j k : ℕ) : Prop where
  current : (τ.accepted t).length = k + 1
  pos : 0 < j
  lt : j < k
  toggles : ∀ i r, j ≤ i → (τ.accepted t)[i]? = some r →
    (r.control.propagate = true ↔ i = j ∨ i = k)

variable (τ) in
/-- The block for the requests from `j` on, before `k`: the D that came with the request before them,
its latest row first, and the products. -/
def block (t j k x y : ℕ) : ℤ :=
  (((τ.timesOf (j - 1) t)[x]?).map fun s => (τ.rowD s y).toInt).getD 0 +
    ∑ u ∈ range t, if τ.fire u = true ∧ j < (τ.accepted u).length ∧ (τ.accepted u).length ≤ k then
      (τ.rowA u x).toInt * (τ.rowB u y).toInt else 0

namespace Flushes

variable {t j k : ℕ} (h : τ.Flushes t j k)

include h

theorem exists_request {i : ℕ} (le : i ≤ k) : ∃ r, (τ.accepted t)[i]? = some r :=
  ⟨_, List.getElem?_eq_getElem (by have := h.current; omega)⟩

theorem parities : parity ((τ.accepted t).take j) = (τ.state t).inProp ∧
    (∀ i, j < i → i ≤ k → parity ((τ.accepted t).take i) = !(τ.state t).inProp) ∧
    parity ((τ.accepted t).take (k + 1)) = (τ.state t).inProp := by
  have last : parity ((τ.accepted t).take (k + 1)) = (τ.state t).inProp := by
    rw [inProp_take le_rfl, h.current]
  have between : ∀ i, j + 1 ≤ i → i ≤ k →
      parity ((τ.accepted t).take i) = parity ((τ.accepted t).take (j + 1)) := by
    intro i low
    induction i, low using Nat.le_induction with
    | base => exact fun _ => rfl
    | succ i low ih =>
      intro high
      obtain ⟨r, hr⟩ := h.exists_request (show i ≤ k by omega)
      have kept : r.control.propagate = false := by
        rw [← Bool.not_eq_true, h.toggles i r (by omega) hr]
        omega
      rw [parity_take hr, kept, Bool.false_xor, ih (by omega)]
  obtain ⟨r, hr⟩ := h.exists_request le_rfl
  obtain ⟨r₀, hr₀⟩ := h.exists_request h.lt.le
  have flipped := parity_take hr
  have started := parity_take hr₀
  rw [(h.toggles k r h.lt.le hr).mpr (.inr rfl), Bool.true_xor, last] at flipped
  rw [(h.toggles j r₀ le_rfl hr₀).mpr (.inl rfl), Bool.true_xor] at started
  have before : parity ((τ.accepted t).take k) = !(τ.state t).inProp := by
    rw [flipped, Bool.not_not]
  refine ⟨?_, fun i low high => ?_, last⟩
  · rw [← between k h.lt le_rfl, before] at started
    simpa using started.symm
  · rw [between i low high, ← between k h.lt le_rfl, before]

theorem stretches (fires : τ.fire t = true) : ∃ t₀ t₁ t₂, t₀ ≤ t₁ ∧ t₁ ≤ t₂ ∧ t₂ ≤ t ∧
    τ.fire t₂ = true ∧
    (∀ u, t₀ ≤ u ∧ u < t₁ ↔ (τ.accepted u).length = j) ∧
    (∀ u, τ.fire u = true → (t₁ ≤ u ∧ u < t₂ ↔ j < (τ.accepted u).length ∧
      (τ.accepted u).length ≤ k)) ∧
    ∀ u ≤ t, τ.fire u = true → (t₂ ≤ u ↔ (τ.accepted u).length = k + 1) := by
  have current := h.current
  have lt := h.lt
  obtain ⟨t₀, _, start₀⟩ := exists_start (τ := τ) (show j ≤ (τ.accepted t).length by omega)
  obtain ⟨t₁, _, start₁⟩ := exists_start (τ := τ) (show j + 1 ≤ (τ.accepted t).length by omega)
  obtain ⟨a, le, start⟩ := exists_start (τ := τ) (show k + 1 ≤ (τ.accepted t).length by omega)
  have some : ∃ u, a ≤ u ∧ τ.fire u = true := ⟨t, le, fires⟩
  have found := Nat.find_spec some
  have order : t₁ ≤ a := (start₁ a).mpr (by have := (start a).mp le_rfl; omega)
  refine ⟨t₀, t₁, Nat.find some, (start₀ t₁).mpr ?_, order.trans found.1,
    Nat.find_min' some ⟨le, fires⟩, found.2, fun u => ?_, fun u now => ?_, fun u before now => ?_⟩
  · have := (start₁ t₁).mp le_rfl
    omega
  · have := start₀ u
    have := start₁ u
    omega
  · have := start₁ u
    have := start u
    have first : a ≤ u → Nat.find some ≤ u := fun h => Nat.find_min' some ⟨h, now⟩
    omega
  · have := start u
    have first : a ≤ u → Nat.find some ≤ u := fun h => Nat.find_min' some ⟨h, now⟩
    have := length_accepted_mono (τ := τ) before
    omega

theorem respData_block (support : P.df ≠ .ws) (pos : 1 ≤ P.outW) (le : P.outW ≤ 32)
    (acc : 1 ≤ P.accW) (waits : τ.Waits) (fires : τ.fire t = true)
    (row : (τ.timesOf k t).length < P.blockSize) :
    ∃ t₂ ≤ t, τ.fire t₂ = true ∧ (τ.accepted t₂).length = k + 1 ∧ τ.timesOf k t₂ = [] ∧
      ∀ y < P.blockSize, (τ.state (t + P.depth)).respData y = rounded P.toParams
        (sint P.sumW (τ.block t j k (P.blockSize - 1 - (τ.timesOf k t).length) y))
        (τ.state t₂).resultShift := by
  obtain ⟨t₀, t₁, t₂, load, add, drain, first, loads, adds, drains⟩ := h.stretches fires
  obtain ⟨bitLoad, bitAdd, bitDrain⟩ := h.parities
  have current := h.current
  have lt := h.lt
  have jpos := h.pos
  have number := (drains t₂ drain first).mp le_rfl
  have os : ∀ t, τ.fire t = true → P.mode (τ.state t).req.control.dataflow = .os := by
    intro t fires
    rw [dataflow_of_valid (fun _ h => h.os) t (inputNextRow_valid fires), Params.mode]
    cases df : P.df with
    | os => rfl
    | ws => exact absurd df support
    | both => rfl
  have sameLoad : τ.SameBit (τ.state t).inProp t₀ t₁ := fun u low high _ => by
    rw [inProp_take (show u ≤ t by omega), (loads u).mp ⟨low, high⟩, bitLoad]
  have sameAdd : τ.SameBit (!(τ.state t).inProp) t₁ t₂ := fun u low high now => by
    have := (adds u now).mp ⟨low, high⟩
    rw [inProp_take (show u ≤ t by omega), bitAdd _ this.1 this.2]
  have sameDrain : τ.SameBit (τ.state t).inProp t₂ (t + 1) := fun u low high now => by
    rw [inProp_take (show u ≤ t by omega), (drains u (by omega) now).mp low, bitDrain]
  have loadTimes : τ.timesOf (j - 1) t = τ.since t₀ t₁ :=
    times_eq_since (by omega) fun u _ _ => by
      rw [decide_eq_true_eq, loads u]
      omega
  have drainTimes : τ.timesOf k t = τ.since t₂ t := times_congr fun u hu now => by
    rw [Bool.eq_iff_iff, decide_eq_true_eq, decide_eq_true_eq, drains u (by omega) now]
  have whole := (progress (τ := τ) t).done (j - 1) (by omega)
  have some : τ.since t₁ t₂ ≠ [] := by
    have rows := (progress (τ := τ) t).done j (by omega)
    obtain ⟨u, hu⟩ := List.exists_mem_of_length_pos (show 0 < (τ.timesOf j t).length by omega)
    obtain ⟨_, now, number⟩ := mem_times.mp hu
    have inside := (adds u now).mpr ⟨by have := of_decide_eq_true number; omega,
      by have := of_decide_eq_true number; omega⟩
    exact List.ne_nil_of_mem (mem_times.mpr ⟨inside.2, now, decide_eq_true inside.1⟩)
  refine ⟨t₂, drain, first, number, ?_, fun y hy => ?_⟩
  · refine List.eq_nil_iff_forall_not_mem.mpr fun u hu => ?_
    obtain ⟨before, now, number⟩ := mem_times.mp hu
    have := (drains u (by omega) now).mpr (of_decide_eq_true number)
    omega
  · obtain ⟨x, hx⟩ : ∃ x, x = P.blockSize - 1 - (τ.timesOf k t).length := ⟨_, rfl⟩
    obtain ⟨s, hs⟩ : ∃ s, (τ.since t₀ t₁)[x]? = Option.some s :=
      ⟨_, List.getElem?_eq_getElem (by rw [← loadTimes]; omega)⟩
    rw [← hx, respData_flush support pos le os (by simpa [Params.cW, support] using acc) load sameLoad
      hs add sameAdd some first drain sameDrain fires
      (dataflow_kept (fun _ h => h.os) (inputNextRow_valid fires))
      (by rw [← drainTimes]; omega) hy]
    have hxn : x < P.blockSize := by omega
    congr 2
    rw [block, loadTimes, hs, Option.map_some, Option.getD_some, (rows_eq waits s hy).2.2]
    congr 1
    refine (sum_congr rfl fun u hu => ?_).trans (sum_subset (fun u hu => ?_) fun u _ outside => ?_)
    · rw [mem_Ico] at hu
      by_cases now : τ.fire u = true
      · rw [if_pos now, if_pos ⟨now, (adds u now).mp hu⟩, (rows_eq waits u hxn).1,
          (rows_eq waits u hy).2.1]
      · rw [if_neg now, if_neg fun h => now h.1]
    · rw [mem_Ico] at hu
      exact mem_range.mpr (by omega)
    · apply if_neg
      rintro ⟨now, inside⟩
      apply outside
      rw [mem_Ico]
      exact (adds u now).mpr inside

end Flushes

/-! ### Delivered rows -/

theorem latest_of_length {u t i : ℕ} {r : Req Tag} (le : u ≤ t)
    (number : (τ.accepted u).length = i + 1) (h : (τ.accepted t)[i]? = some r) :
    (τ.accepted u).getLast? = some r := by
  rw [List.getLast?_eq_getElem?, number, Nat.add_sub_cancel, accepted_take le, number,
    List.getElem?_take_of_lt (Nat.lt_succ_self i), h]

variable (τ) in
/-- The first row of request `k` enters in the cycle after the request was accepted. -/
def Prompt (t k : ℕ) : Prop :=
  ∀ u ≤ t, τ.fire u = true → (τ.accepted u).length = k + 1 → τ.timesOf k u = [] →
    (τ.accepted (u - 1)).length = k

instance (t k : ℕ) : Decidable (τ.Prompt t k) :=
  inferInstanceAs (Decidable (∀ u ≤ t, _ → _ → _ → _))

theorem resultShift_eq {t k : ℕ} {r r' : Req Tag} (hk : 0 < k)
    (previous : (τ.accepted t)[k - 1]? = some r) (current : (τ.accepted t)[k]? = some r')
    (shift : τ.Prompt t k ∨ r.control.shift = r'.control.shift) {u : ℕ} (le : u ≤ t)
    (fires : τ.fire u = true) (number : (τ.accepted u).length = k + 1)
    (first : τ.timesOf k u = []) : (τ.state u).resultShift = r.control.shift := by
  cases u with
  | zero =>
    have := inputNextRow_valid fires
    rw [τ.init.reqValid] at this
    cases this
  | succ w =>
    have step := length_accepted_succ (τ := τ) w
    have mono := length_accepted_mono (τ := τ) (Nat.le_add_right w 1)
    by_cases before : (τ.accepted w).length = k
    · exact resultShift_succ (latest_of_length (by omega) (by omega) previous)
    · rcases shift with prompt | same
      · exact absurd (prompt (w + 1) le fires number first) before
      · rw [same]
        exact resultShift_succ (latest_of_length (by omega) (by omega) current)

theorem sint_sumW {P : Params} (support : P.df ≠ .ws) (pos : 1 ≤ P.outW) {x : ℤ}
    (fits : Representable P.outW (sint P.accW x)) : sint P.sumW x = sint P.accW x := by
  have register : P.cW = P.accW := by simp [Params.cW, support]
  rw [Params.sumW, register]
  rcases Nat.le_total P.outW P.accW with narrow | wide
  · rw [min_eq_left narrow, ← fits.sint_eq pos, sint_eq_iff]
    exact (sint_modEq_of_le narrow x).symm
  · rw [min_eq_right wide]

/-- A toggling request takes the block of the requests before it out of the array, the last row
first: D plus all products, added up in the accumulator type, rounded by the shift of the last of
these requests and saturated, if the sum itself fits the output type and the shift is still there. -/
theorem os_row_delivered (support : P.df ≠ .ws) (pos : 1 ≤ P.outW) (le : P.outW ≤ 32)
    (acc : 1 ≤ P.accW) (waits : τ.Waits) {t j k : ℕ} {r r' : Req Tag} (h : τ.Flushes t j k)
    (fires : τ.fire t = true) (row : (τ.timesOf k t).length < P.blockSize)
    (previous : (τ.accepted t)[k - 1]? = some r) (current : (τ.accepted t)[k]? = some r')
    (shift : τ.Prompt t k ∨ r.control.shift = r'.control.shift)
    (fits : ∀ y < P.blockSize, Representable P.outW
      (sint P.accW (τ.block t j k (P.blockSize - 1 - (τ.timesOf k t).length) y))) :
    ((τ.state (t + P.depth)).resp garbage).valid = true ∧
    ∀ y < P.blockSize, ((τ.state (t + P.depth)).resp garbage).data y =
      saturate P.outW (roundingShift
        (sint P.accW (τ.block t j k (P.blockSize - 1 - (τ.timesOf k t).length) y))
        r.control.shift) := by
  obtain ⟨t₂, before, first, number, none, data⟩ := h.respData_block support pos le acc waits fires row
  have used := resultShift_eq (by have := h.lt; omega) previous current shift before first number none
  refine ⟨?_, fun y hy => ?_⟩
  · show (τ.state (t + P.depth)).mark.valid = true
    rw [mark_wave]
    exact fires
  · show (τ.state (t + P.depth)).respData y = _
    rw [data y hy, used, sint_sumW support pos (fits y hy)]
    rfl

/-! ### Small runs -/

/-- A block of two rows that toggles `propagate`. -/
def twoRows (shift : ℕ) : Req ℕ := ⟨⟨.os, true, shift⟩, true, false, 2, 0, 0⟩

/-- D is loaded, two products are added up and the block is taken out; the last rows come directly, or a
cycle later. -/
def threeBlocks (outW accW shift : ℕ) (late : Bool) :
    Run (smallArray .both outW accW) 0 (Req.Os (smallArray .both outW accW)) :=
  Run.ofInputs ([operands 0 0 0 (twoRows 0), operands 0 0 0 none, operands 10 10 0 (twoRows shift),
    operands 10 10 0 none] ++ if late then [⟨none, none, none, twoRows 0⟩, operands 0 0 0 none]
      else [operands 0 0 0 (twoRows 0)]) (by
    intro inp hinp r hr
    have block : ∃ shift, r = twoRows shift := by
      cases late <;> simp [operands] at hinp <;> aesop
    obtain ⟨shift, rfl⟩ := block
    exact ⟨rfl, rfl⟩)

theorem threeBlocks_flushless (outW accW shift : ℕ) (late : Bool) (t : ℕ) :
    ∀ r ∈ ((threeBlocks outW accW shift late).input t).req, r.flush = 0 := by
  rcases t with _ | _ | _ | _ | _ | _ | t <;> cases late <;> rintro r ⟨⟩ <;> rfl

theorem threeBlocks_flushes (outW accW shift : ℕ) {late : Bool} {t : ℕ}
    (three : (threeBlocks outW accW shift late).accepted t = [twoRows 0, twoRows shift, twoRows 0]) :
    (threeBlocks outW accW shift late).Flushes t 1 2 := by
  refine ⟨by rw [three]; rfl, by decide, by decide, fun i r low hr => ?_⟩
  rw [three] at hr
  rcases i with _ | _ | _ | i
  · omega
  · cases hr
    exact ⟨fun _ => .inl rfl, fun _ => rfl⟩
  · cases hr
    exact ⟨fun _ => .inr rfl, fun _ => rfl⟩
  · simp at hr

theorem threeBlocks_idle (outW accW shift : ℕ) (late : Bool) (t : ℕ) (after : 6 ≤ t) :
    (threeBlocks outW accW shift late).input t = Input.idle := by
  obtain ⟨t, rfl⟩ := Nat.exists_eq_add_of_le' after
  cases late <;> rfl

theorem block_taken_out :
    let τ := threeBlocks 20 32 1 false
    τ.Flushes 5 1 2 ∧ τ.fire 5 = true ∧ ((τ.state 6).resp 0).data 0 = 100 := by
  have flushes : (threeBlocks 20 32 1 false).Flushes 5 1 2 := threeBlocks_flushes 20 32 1 rfl
  have fires : (threeBlocks 20 32 1 false).fire 5 = true := by decide
  have waits : (threeBlocks 20 32 1 false).Waits :=
    waits_of_idle (threeBlocks_flushless 20 32 1 false) 6 (by decide)
      (threeBlocks_idle 20 32 1 false)
  have previous : ((threeBlocks 20 32 1 false).accepted 5)[2 - 1]? = some (twoRows 1) := rfl
  have current : ((threeBlocks 20 32 1 false).accepted 5)[2]? = some (twoRows 0) := rfl
  have delivered := os_row_delivered (by decide) (by decide) (by decide) (by decide) waits flushes fires
    (by decide) previous current (.inl (by decide)) (by decide)
  exact ⟨flushes, fires, (delivered.2 0 (by decide)).trans (by decide)⟩

/-- The block is 200 in every element.  An output type of 8 bits gives -56, not 127.  If the last
request has to wait for its operands, the block is not shifted at all.  Bounds of more than 32 bits
clip it to 0. -/
theorem block_wraps :
    ((threeBlocks 8 32 0 false).Waits ∧ (threeBlocks 8 32 0 false).Flushes 5 1 2 ∧
      (threeBlocks 8 32 0 false).fire 5 = true ∧ (threeBlocks 8 32 0 false).block 5 1 2 1 0 = 200 ∧
      (((threeBlocks 8 32 0 false).state 6).resp 0).data 0 = -56 ∧
      saturate 8 (roundingShift (sint 32 200) 0) = 127) ∧
    ((threeBlocks 20 32 1 true).Waits ∧ (threeBlocks 20 32 1 true).Flushes 6 1 2 ∧
      (threeBlocks 20 32 1 true).fire 6 = true ∧ (threeBlocks 20 32 1 true).block 6 1 2 1 0 = 200 ∧
      (((threeBlocks 20 32 1 true).state 7).resp 0).data 0 = 200 ∧
      (((threeBlocks 20 32 1 false).state 6).resp 0).data 0 = 100) ∧
    (threeBlocks 33 40 0 false).Waits ∧ (threeBlocks 33 40 0 false).Flushes 5 1 2 ∧
      (threeBlocks 33 40 0 false).fire 5 = true ∧
      (threeBlocks 33 40 0 false).block 5 1 2 1 0 = 200 ∧
      (((threeBlocks 33 40 0 false).state 6).resp 0).data 0 = 0 := by
  have waits (outW accW shift late) := fun early =>
    waits_of_idle (threeBlocks_flushless outW accW shift late) 6 early
      (threeBlocks_idle outW accW shift late)
  refine ⟨⟨waits _ _ _ _ (by decide), threeBlocks_flushes 8 32 0 rfl, ?_⟩,
    ⟨waits _ _ _ _ (by decide), threeBlocks_flushes 20 32 1 rfl, ?_⟩,
    waits _ _ _ _ (by decide), threeBlocks_flushes 33 40 0 rfl, ?_⟩
  · decide
  · decide
  · decide

end Run

end Gemmini.Mesh
