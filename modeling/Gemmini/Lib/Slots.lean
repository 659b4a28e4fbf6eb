import Gemmini.Lib.Machine
import Mathlib.Tactic

/-!
# Loops that overlap in two slots

A loop is configured into a free slot and worked on by several units, each of which takes first the loop
in the head slot, then the one in the other.  When all stages of the head slot are completed it is
freed, and the other slot becomes the head.  Numbered in the order of their configuration, at most two
consecutive loops are in flight, so that the slot determines the number.
-/

namespace Gemmini.Slots

/-- A slot: the configuration and the progress of the loop in it. -/
structure Slot (C S : Type) where
  cfg : C
  configured : Bool
  running : Bool
  started : S → Bool
  completed : S → Bool

/-- Units `U` work on stages `S`; which unit of a stage a loop uses may depend on its configuration
`C`. -/
structure Layout (C S U : Type) where
  stage : U → S
  serves : C → U → Bool
  /-- What freeing a slot does to the configuration registers. -/
  clear : C → C
  serves_unique : ∀ {c u v}, serves c u = true → serves c v = true → stage u = stage v → u = v

/-- The registers: the slots, and for each unit whether it works and on which slot. -/
structure State (C S U : Type) where
  loops : Bool → Slot C S
  head : Bool
  busy : U → Bool
  loopId : U → Bool

inductive Config (C S : Type)
  | edit (f : C → C)
  /-- The last one: the loop is complete, and some stages are to be skipped. -/
  | run (f : C → C) (skips : S → Bool)

/-- A configuring command is offered, units take up a loop, and units become idle. -/
structure Input (C S U : Type) where
  config : Option (Config C S)
  fire : U → Bool
  done : U → Bool

variable {C S U : Type}

section Step

variable (L : Layout C S U) (s : State C S U) (inp : Input C S U)

/-- The slot being configured: the head unless it is taken. -/
def State.being : Bool := if (s.loops s.head).configured then !s.head else s.head

/-- The slot that a stage is asked to take up next: the head unless it is started there. -/
def State.requesting (k : S) : Bool := if (s.loops s.head).started k then !s.head else s.head

/-- A request that a unit may be given. -/
def State.mayFire (u : U) : Bool :=
  let l := s.loops (s.requesting (L.stage u))
  l.configured && !l.started (L.stage u) && L.serves l.cfg u && !s.busy u

def Slot.configure (l : Slot C S) : Option (Config C S) → Slot C S
  | none => l
  | some (.edit f) => { l with cfg := f l.cfg }
  | some (.run f skips) =>
    { l with cfg := f l.cfg, configured := true, started := skips, completed := skips }

@[simp] theorem Slot.configure_running (l : Slot C S) (c : Option (Config C S)) :
    (l.configure c).running = l.running := by
  rcases c with _ | _ | _ <;> rfl

def State.taken : Option (Config C S) :=
  if (s.loops s.being).configured then none else inp.config

section Decidable

variable [Fintype S] [DecidableEq S] [Fintype U]

def State.frees : Bool :=
  (s.loops s.head).running && decide (∀ k, (s.loops s.head).completed k = true)

/-- Some unit of stage `k` takes up the loop in slot `i`. -/
def State.starts (i : Bool) (k : S) : Bool :=
  decide (∃ u, inp.fire u = true ∧ L.stage u = k ∧ s.requesting k = i)

/-- Some idle unit of stage `k` last worked on the loop in slot `i`. -/
def State.completes (i : Bool) (k : S) : Bool :=
  decide (∃ u, L.stage u = k ∧ s.loopId u = i ∧ s.busy u = false ∧
    (s.loops i).running = true ∧ (s.loops i).started k = true ∧ L.serves (s.loops i).cfg u = true)

def State.nextSlot (i : Bool) : Slot C S :=
  let l := if i = s.being then (s.loops i).configure (s.taken inp) else s.loops i
  if i = s.head ∧ s.frees = true then
    { cfg := L.clear l.cfg, configured := false, running := false, started := fun _ => false,
      completed := fun _ => false }
  else
    { l with
      running := l.running || decide (∃ k, s.starts L inp i k = true)
      started := fun k => l.started k || s.starts L inp i k
      completed := fun k => l.completed k || s.completes L i k }

def State.next : State C S U where
  loops := s.nextSlot L inp
  head := if s.frees then !s.head else s.head
  busy u := inp.fire u || (s.busy u && !inp.done u)
  loopId u := if inp.fire u then s.requesting (L.stage u) else s.loopId u

/-- What every command and the freeing of a slot keep of the configurations stays true of them. -/
theorem State.nextSlot_cfg {P : C → Prop} (holds : ∀ i, P (s.loops i).cfg)
    (clear : ∀ c, P c → P (L.clear c))
    (edit : ∀ f c, (inp.config = some (.edit f) ∨ ∃ skips, inp.config = some (.run f skips)) →
      P c → P (f c)) (i : Bool) : P (s.nextSlot L inp i).cfg := by
  have configured : P ((if i = s.being then (s.loops i).configure (s.taken inp) else s.loops i)).cfg := by
    split
    · unfold State.taken
      split
      · exact holds i
      · cases hconfig : inp.config with
        | none => exact holds i
        | some x =>
          cases x with
          | edit f => exact edit f _ (.inl hconfig) (holds i)
          | run f skips => exact edit f _ (.inr ⟨skips, hconfig⟩) (holds i)
    · exact holds i
  unfold State.nextSlot
  dsimp only
  by_cases freed : i = s.head ∧ s.frees = true
  · rw [if_pos freed]
    exact clear _ configured
  · rw [if_neg freed]
    exact configured

end Decidable

end Step

/-! ### The loops by number -/

/-- The slot of the loop with a given number. -/
def slotOf (start : Bool) (n : ℕ) : Bool := start ^^ decide (n % 2 = 1)

theorem slotOf_succ (start : Bool) (n : ℕ) : slotOf start (n + 1) = !slotOf start n := by
  have := Nat.mod_two_eq_zero_or_one n
  rcases this with h | h <;> simp [slotOf, h, Nat.add_mod]

theorem mod_two_of_slotOf_eq {start : Bool} {m n : ℕ} (h : slotOf start m = slotOf start n) :
    m % 2 = n % 2 := by
  have hm := Nat.mod_two_eq_zero_or_one m
  have hn := Nat.mod_two_eq_zero_or_one n
  rcases hm with hm | hm <;> rcases hn with hn | hn <;> simp_all [slotOf]

/-- The registers with the history: the loops configured so far and the stages they skip, how many have
left, and the loop that each unit took up last. -/
structure Tracked (C S U : Type) where
  state : State C S U
  start : Bool
  first : ℕ
  infos : List (C × (S → Bool))
  serving : U → Option ℕ

namespace Tracked

variable (L : Layout C S U) (t : Tracked C S U) (inp : Input C S U)

/-- The slot of loop `n`. -/
def slot (n : ℕ) : Slot C S := t.state.loops (slotOf t.start n)

def numberOf (i : Bool) : ℕ := if i = t.state.head then t.first else t.first + 1

/-- The loop that is configured in this cycle. -/
def configuredNow : Option (C × (S → Bool)) :=
  match t.state.taken inp with
  | some (.run f skips) => some (f (t.state.loops t.state.being).cfg, skips)
  | _ => none

variable [Fintype S] [DecidableEq S] [Fintype U]

def next : Tracked C S U where
  state := t.state.next L inp
  start := t.start
  first := if t.state.frees then t.first + 1 else t.first
  infos := t.infos ++ (t.configuredNow inp).toList
  serving u := if inp.fire u then some (t.numberOf (t.state.requesting (L.stage u))) else t.serving u

end Tracked

/-- The slots hold the two latest loops that have not left, and the units work on those. -/
structure Inv (L : Layout C S U) (t : Tracked C S U) : Prop where
  head : t.state.head = slotOf t.start t.first
  first_le : t.first ≤ t.infos.length
  le_two : t.infos.length ≤ t.first + 2
  configured : ∀ n, t.first ≤ n → n < t.first + 2 →
    (t.slot n).configured = decide (n < t.infos.length)
  fresh : ∀ n, t.first ≤ n → n < t.first + 2 → (t.slot n).configured = false →
    (t.slot n).running = false ∧
      ∀ k, (t.slot n).started k = false ∧ (t.slot n).completed k = false
  info : ∀ n c skips, t.first ≤ n → t.infos[n]? = some (c, skips) → (t.slot n).cfg = c ∧
    ∀ k, skips k = true → (t.slot n).started k = true ∧ (t.slot n).completed k = true
  completed : ∀ n k, t.first ≤ n → n < t.first + 2 → (t.slot n).completed k = true →
    (t.slot n).started k = true
  order : ∀ c skips k, t.infos[t.first + 1]? = some (c, skips) → skips k = false →
    (t.slot (t.first + 1)).started k = true → (t.slot t.first).started k = true
  served : ∀ u m, t.serving u = some m →
    m < t.infos.length ∧ t.state.loopId u = slotOf t.start m
  working : ∀ u, t.state.busy u = true → ∃ m c skips, t.serving u = some m ∧ t.first ≤ m ∧
    t.infos[m]? = some (c, skips) ∧ skips (L.stage u) = false ∧ L.serves c u = true ∧
    (t.slot m).started (L.stage u) = true ∧ (t.slot m).completed (L.stage u) = false
  tookUp : ∀ n c skips u, t.first ≤ n → t.infos[n]? = some (c, skips) →
    skips (L.stage u) = false → L.serves c u = true → (t.slot n).started (L.stage u) = true →
    ∃ m, t.serving u = some m ∧ n ≤ m

namespace Inv

variable {L : Layout C S U} {t : Tracked C S U} {inp : Input C S U}

/-! ### What the slots say about the numbers -/

theorem lt_of_getElem? {n : ℕ} {x : C × (S → Bool)} (h : t.infos[n]? = some x) :
    n < t.infos.length := (List.getElem?_eq_some_iff.mp h).1

theorem fresh_of_late (inv : Inv L t) {n : ℕ} (first : t.first ≤ n) (recent : n < t.first + 2)
    (late : ¬n < t.infos.length) : (t.slot n).running = false ∧
      ∀ k, (t.slot n).started k = false ∧ (t.slot n).completed k = false :=
  inv.fresh n first recent ((inv.configured n first recent).trans (decide_eq_false late))

theorem numberOf_head (inv : Inv L t) : t.numberOf (slotOf t.start t.first) = t.first := by
  rw [Tracked.numberOf, ← inv.head, if_pos rfl]

theorem numberOf_tail (inv : Inv L t) : t.numberOf (slotOf t.start (t.first + 1)) = t.first + 1 := by
  rw [Tracked.numberOf, slotOf_succ, ← inv.head, if_neg (by simp)]

/-- Out of reset: no loop is configured and no unit works. -/
theorem init (free : ∀ i, (t.state.loops i).configured = false ∧ (t.state.loops i).running = false ∧
      ∀ k, (t.state.loops i).started k = false ∧ (t.state.loops i).completed k = false)
    (idle : ∀ u, t.state.busy u = false) (head : t.state.head = t.start) (first : t.first = 0)
    (infos : t.infos = []) (serving : ∀ u, t.serving u = none) : Inv L t := by
  constructor
  · simp [head, first, slotOf]
  · simp [first]
  · simp [infos]
  · intro n _ _
    simp [infos, Tracked.slot, free]
  · exact fun n _ _ _ => (free _).2
  · simp [infos]
  · intro n k _ _ completed
    rw [Tracked.slot, ((free _).2.2 k).2] at completed
    cases completed
  · simp [infos]
  · simp [serving]
  · simp [idle]
  · simp [infos]

/-- A unit works on loop `n` exactly if it is busy and shows the slot of `n`. -/
theorem busy_iff (inv : Inv L t) {u : U} {n : ℕ} (flight : t.first ≤ n) (recent : n < t.first + 2) :
    (t.state.busy u = true ∧ t.serving u = some n) ↔
      (t.state.busy u = true ∧ t.state.loopId u = slotOf t.start n) := by
  refine and_congr_right fun busy => ⟨fun h => (inv.served u n h).2, fun h => ?_⟩
  obtain ⟨m, _, _, hm, first, hinfo, _⟩ := inv.working u busy
  obtain ⟨bound, same⟩ := inv.served u m hm
  have parity := mod_two_of_slotOf_eq (same.symm.trans h)
  have := inv.le_two
  rw [hm]
  congr 1
  omega

/-- The wire by which another unit sees that this one does not work on loop `n`: it shows another
slot, or it is idle. -/
theorem away_iff (inv : Inv L t) {u : U} {n : ℕ} (flight : t.first ≤ n)
    (recent : n < t.first + 2) :
    (t.state.loopId u != slotOf t.start n || !t.state.busy u) = true ↔
      ¬(t.state.busy u = true ∧ t.serving u = some n) := by
  rw [inv.busy_iff flight recent]
  cases t.state.busy u <;> simp

theorem being_eq (inv : Inv L t) (room : t.infos.length < t.first + 2) :
    t.state.being = slotOf t.start t.infos.length := by
  have first := inv.configured t.first le_rfl (by omega)
  rw [Tracked.slot, ← inv.head] at first
  have := inv.first_le
  unfold State.being
  rw [first]
  rcases Nat.lt_or_ge t.first t.infos.length with taken | free
  · have : t.infos.length = t.first + 1 := by omega
    simp [this, slotOf_succ, inv.head]
  · have : t.infos.length = t.first := by omega
    simp [this, inv.head]

theorem taken_of_room (inv : Inv L t) (room : t.infos.length < t.first + 2) :
    t.state.taken inp = inp.config := by
  have := inv.first_le
  have free := inv.configured t.infos.length this room
  rw [Tracked.slot, ← inv.being_eq room] at free
  simp [State.taken, free]

theorem taken_of_full (inv : Inv L t) (full : t.infos.length = t.first + 2) :
    t.state.taken inp = none := by
  have first := inv.configured t.first le_rfl (by omega)
  have second := inv.configured (t.first + 1) (by omega) (by omega)
  rw [Tracked.slot, ← inv.head] at first
  rw [Tracked.slot, slotOf_succ, ← inv.head] at second
  simp [State.taken, State.being, first, second, full]

/-- A loop that a unit may take up. -/
structure TakesUp (L : Layout C S U) (t : Tracked C S U) (u : U) (m : ℕ) : Prop where
  number : t.numberOf (t.state.requesting (L.stage u)) = m
  slot : t.state.requesting (L.stage u) = slotOf t.start m
  first_le : t.first ≤ m
  info : ∃ c skips, t.infos[m]? = some (c, skips) ∧ skips (L.stage u) = false ∧
    L.serves c u = true
  notStarted : (t.slot m).started (L.stage u) = false
  idle : t.state.busy u = false
  after : m ≠ t.first → m = t.first + 1 ∧ (t.slot t.first).started (L.stage u) = true

theorem takesUp (inv : Inv L t) {u : U} (may : t.state.mayFire L u = true) :
    ∃ m, TakesUp L t u m := by
  simp only [State.mayFire, Bool.and_eq_true, Bool.not_eq_true'] at may
  obtain ⟨⟨⟨configured, notStarted⟩, serves⟩, idle⟩ := may
  -- the number of the slot, and that its loop is one of the configured ones
  have info : ∀ m, t.first ≤ m → m < t.first + 2 →
      t.state.requesting (L.stage u) = slotOf t.start m →
      ∃ c skips, t.infos[m]? = some (c, skips) ∧ skips (L.stage u) = false ∧
        L.serves c u = true := by
    intro m hm hm' same
    rw [same] at configured notStarted serves
    have bound : m < t.infos.length := by
      have := inv.configured m hm hm'
      rw [Tracked.slot, configured] at this
      simpa using this.symm
    obtain ⟨⟨c, skips⟩, hinfo⟩ : ∃ x, t.infos[m]? = some x := ⟨_, List.getElem?_eq_getElem bound⟩
    obtain ⟨hcfg, hskips⟩ := inv.info m c skips hm hinfo
    refine ⟨c, skips, hinfo, ?_, hcfg ▸ serves⟩
    by_contra skipped
    rw [Bool.not_eq_false] at skipped
    have started := (hskips _ skipped).1
    rw [Tracked.slot, notStarted] at started
    cases started
  cases hstarted : (t.state.loops t.state.head).started (L.stage u) with
  | false =>
    have same : t.state.requesting (L.stage u) = slotOf t.start t.first := by
      rw [State.requesting, hstarted, ← inv.head]
      rfl
    exact ⟨t.first, by rw [same, inv.numberOf_head], same, le_rfl,
      info _ le_rfl (by omega) same, by rw [Tracked.slot, ← same]; exact notStarted, idle,
      fun h => absurd rfl h⟩
  | true =>
    have same : t.state.requesting (L.stage u) = slotOf t.start (t.first + 1) := by
      rw [State.requesting, hstarted, slotOf_succ, ← inv.head]
      rfl
    refine ⟨t.first + 1, by rw [same, inv.numberOf_tail], same, by omega,
      info _ (by omega) (by omega) same, by rw [Tracked.slot, ← same]; exact notStarted, idle,
      fun _ => ⟨rfl, ?_⟩⟩
    rw [Tracked.slot, ← inv.head, hstarted]

theorem TakesUp.lt_length {u : U} {m : ℕ} (h : TakesUp L t u m) : m < t.infos.length := by
  obtain ⟨c, skips, hinfo, _⟩ := h.info
  exact lt_of_getElem? hinfo

theorem TakesUp.lt_two {u : U} {m : ℕ} (h : TakesUp L t u m) : m < t.first + 2 := by
  by_cases hm : m = t.first
  · omega
  · have := (h.after hm).1
    omega

theorem configuredNow_spec (inv : Inv L t) {x : C × (S → Bool)}
    (now : t.configuredNow inp = some x) : t.infos.length < t.first + 2 ∧
      ∃ f, inp.config = some (.run f x.2) ∧ x.1 = f (t.slot t.infos.length).cfg := by
  have := inv.le_two
  rcases Nat.lt_or_ge t.infos.length (t.first + 2) with room | full
  · refine ⟨room, ?_⟩
    rw [Tracked.configuredNow, inv.taken_of_room room, inv.being_eq room] at now
    rcases hconfig : inp.config with _ | _ | ⟨f, skips⟩ <;> rw [hconfig] at now
    · cases now
    · cases now
    · cases now
      exact ⟨f, rfl, rfl⟩
  · rw [Tracked.configuredNow, inv.taken_of_full (by omega)] at now
    cases now

/-! ### One cycle -/

section Cycle

variable [Fintype S] [DecidableEq S] [Fintype U]
  (legal : ∀ u, inp.fire u = true → t.state.mayFire L u = true)

omit [DecidableEq S] [Fintype U] in
theorem frees_spec (inv : Inv L t) (frees : t.state.frees = true) :
    t.first < t.infos.length ∧ ∀ k, (t.slot t.first).completed k = true := by
  simp only [State.frees, Bool.and_eq_true, decide_eq_true_eq] at frees
  rw [inv.head] at frees
  refine ⟨?_, frees.2⟩
  by_contra late
  have running := (inv.fresh_of_late le_rfl (by omega) late).1
  unfold Tracked.slot at running
  rw [frees.1] at running
  cases running

/-- Loop `n` is in flight, and does not leave. -/
structure Stays (t : Tracked C S U) (n : ℕ) : Prop where
  first_le : t.first ≤ n
  lt_two : n < t.first + 2
  kept : n = t.first → t.state.frees = false

theorem next_slot (inv : Inv L t) {n : ℕ} (stays : Stays t n) :
    (t.next L inp).slot n =
      let l := if n = t.infos.length then (t.slot n).configure inp.config else t.slot n
      { l with
        running := l.running || decide (∃ k, t.state.starts L inp (slotOf t.start n) k = true)
        started := fun k => l.started k || t.state.starts L inp (slotOf t.start n) k
        completed := fun k => l.completed k || t.state.completes L (slotOf t.start n) k } := by
  obtain ⟨first, recent, kept⟩ := stays
  have hslot : (if slotOf t.start n = t.state.being then
      (t.state.loops (slotOf t.start n)).configure (t.state.taken inp)
      else t.state.loops (slotOf t.start n)) =
      if n = t.infos.length then (t.slot n).configure inp.config else t.slot n := by
    have := inv.first_le
    have := inv.le_two
    rcases Nat.lt_or_ge t.infos.length (t.first + 2) with room | full
    · rw [inv.being_eq room, inv.taken_of_room room]
      by_cases same : n = t.infos.length
      · rw [if_pos (by rw [same]), if_pos same]
        rfl
      · rw [if_neg ?_, if_neg same]
        · rfl
        · intro h
          have := mod_two_of_slotOf_eq h
          omega
    · have notLast : n ≠ t.infos.length := by omega
      rw [inv.taken_of_full (by omega)]
      simp [Slot.configure, notLast, Tracked.slot]
  have notFreed : ¬(slotOf t.start n = t.state.head ∧ t.state.frees = true) := by
    rintro ⟨same, frees⟩
    rw [inv.head] at same
    have := mod_two_of_slotOf_eq same
    have hn : n = t.first := by omega
    rw [kept hn] at frees
    cases frees
  show t.state.nextSlot L inp (slotOf t.start n) = _
  unfold State.nextSlot
  rw [if_neg notFreed, hslot]

/-- The slot of the loop that leaves is free for the one after the next. -/
theorem next_slot_freed (inv : Inv L t) (frees : t.state.frees = true) {n : ℕ}
    (hn : n = t.first + 2) :
    ((t.next L inp).slot n).configured = false ∧ ((t.next L inp).slot n).running = false ∧
      ∀ k, ((t.next L inp).slot n).started k = false ∧
        ((t.next L inp).slot n).completed k = false := by
  have same : slotOf t.start n = t.state.head := by
    rw [hn, inv.head, slotOf_succ, slotOf_succ, Bool.not_not]
  have hnext : (t.next L inp).slot n = t.state.nextSlot L inp t.state.head := by
    rw [← same]
    rfl
  rw [hnext, State.nextSlot]
  simp [frees]

theorem next_first (t : Tracked C S U) (inp : Input C S U) :
    (t.next L inp).first = if t.state.frees then t.first + 1 else t.first := rfl

theorem Stays.next_first_le {n : ℕ} (stays : Stays t n) : (t.next L inp).first ≤ n := by
  have := stays.first_le
  rw [next_first]
  split
  · rename_i frees
    by_contra
    have := stays.kept (by omega)
    rw [this] at frees
    cases frees
  · exact stays.first_le

theorem next_infos_cases {n : ℕ} {x : C × (S → Bool)} (h : (t.next L inp).infos[n]? = some x) :
    t.infos[n]? = some x ∨ n = t.infos.length ∧ t.configuredNow inp = some x := by
  rcases Nat.lt_or_ge n t.infos.length with old | new
  · exact .inl ((List.getElem?_append_left old).symm.trans h)
  · refine .inr ?_
    rw [show (t.next L inp).infos = t.infos ++ (t.configuredNow inp).toList from rfl,
      List.getElem?_append_right new] at h
    cases hnow : t.configuredNow inp with
    | none => simp [hnow] at h
    | some y =>
      rw [hnow, Option.toList_some] at h
      have bound := (List.getElem?_eq_some_iff.mp h).1
      rw [List.length_singleton] at bound
      obtain rfl : n = t.infos.length := by omega
      rw [Nat.sub_self] at h
      exact ⟨rfl, h⟩

theorem next_infos_of_getElem? {n : ℕ} {x : C × (S → Bool)} (h : t.infos[n]? = some x) :
    (t.next L inp).infos[n]? = some x :=
  (List.getElem?_append_left (lt_of_getElem? h)).trans h

/-- A stage that was started before, or is started in this cycle, or is skipped by the new loop; and the
same for its completion. -/
theorem next_flags (inv : Inv L t) {n : ℕ} (stays : Stays t n) (k : S) :
    (((t.next L inp).slot n).started k = true ↔
      (t.slot n).started k = true ∨ t.state.starts L inp (slotOf t.start n) k = true ∨
        n = t.infos.length ∧ ∃ f skips, inp.config = some (.run f skips) ∧ skips k = true) ∧
    (((t.next L inp).slot n).completed k = true ↔
      (t.slot n).completed k = true ∨ t.state.completes L (slotOf t.start n) k = true ∨
        n = t.infos.length ∧ ∃ f skips, inp.config = some (.run f skips) ∧ skips k = true) := by
  rw [inv.next_slot stays]
  by_cases last : n = t.infos.length
  · have free := (inv.fresh_of_late stays.first_le stays.lt_two (by omega)).2 k
    rcases hconfig : inp.config with _ | _ | ⟨f, skips⟩ <;>
      simp [last, Slot.configure, or_comm]
    all_goals simp [← last, free.1, free.2]
  · simp [last]

omit [Fintype S] in
include legal in
/-- The unit that starts a stage of loop `n`. -/
theorem starts_spec (inv : Inv L t) {n : ℕ} (first : t.first ≤ n) (recent : n < t.first + 2) {k : S}
    (starts : t.state.starts L inp (slotOf t.start n) k = true) :
    ∃ u, inp.fire u = true ∧ L.stage u = k ∧ TakesUp L t u n := by
  obtain ⟨u, fires, rfl, same⟩ := of_decide_eq_true starts
  obtain ⟨m, h⟩ := inv.takesUp (legal u fires)
  have parity := mod_two_of_slotOf_eq (h.slot.symm.trans same)
  have := h.first_le
  have := h.lt_two
  obtain rfl : m = n := by omega
  exact ⟨u, fires, rfl, h⟩

omit [DecidableEq S] [Fintype U] in
theorem TakesUp.stays (inv : Inv L t) {u : U} {m : ℕ} (h : TakesUp L t u m) : Stays t m := by
  refine ⟨h.first_le, h.lt_two, fun hm => ?_⟩
  by_contra frees
  have all := (inv.frees_spec (by simpa using frees)).2 (L.stage u)
  have started := inv.completed t.first _ le_rfl (by omega) all
  rw [← hm, h.notStarted] at started
  cases started

theorem next_window {n : ℕ} (first : (t.next L inp).first ≤ n)
    (recent : n < (t.next L inp).first + 2) :
    Stays t n ∨ (t.state.frees = true ∧ n = t.first + 2) := by
  rw [next_first] at first recent
  cases h : t.state.frees with
  | false =>
    rw [h] at first recent
    exact .inl ⟨first, recent, fun _ => h⟩
  | true =>
    rw [h, if_pos rfl] at first recent
    by_cases hn : n = t.first + 2
    · exact .inr ⟨rfl, hn⟩
    · exact .inl ⟨by omega, by omega, fun _ => by omega⟩

variable (inv : Inv L t)
include inv

theorem next_info_window {n : ℕ} {x : C × (S → Bool)}
    (first : (t.next L inp).first ≤ n) (hinfo : (t.next L inp).infos[n]? = some x) : Stays t n := by
  rw [next_first] at first
  refine ⟨by split at first <;> omega, ?_, ?_⟩
  · rcases next_infos_cases hinfo with h | ⟨rfl, now⟩
    · exact (lt_of_getElem? h).trans_le inv.le_two
    · exact (inv.configuredNow_spec now).1
  · intro h
    by_contra frees
    rw [if_pos (by simpa using frees)] at first
    omega

theorem next_configured {n : ℕ} (first : (t.next L inp).first ≤ n)
    (recent : n < (t.next L inp).first + 2) :
    ((t.next L inp).slot n).configured = decide (n < (t.next L inp).infos.length) := by
  have length : (t.next L inp).infos.length =
      t.infos.length + (t.configuredNow inp).toList.length := List.length_append
  have := inv.le_two
  rcases next_window first recent with stays | ⟨frees, rfl⟩
  · rw [inv.next_slot stays, length]
    have before := inv.configured n stays.first_le stays.lt_two
    by_cases last : n = t.infos.length
    · have hnow : t.configuredNow inp = match inp.config with
          | some (.run f skips) => some (f (t.state.loops t.state.being).cfg, skips)
          | _ => none := by
        rw [Tracked.configuredNow, inv.taken_of_room (last ▸ stays.lt_two)]
      rw [last, decide_eq_false (lt_irrefl _)] at before
      rcases hconfig : inp.config with _ | _ | ⟨f, skips⟩ <;>
        simp [last, Slot.configure, hnow, hconfig, before]
    · have : n < t.infos.length + (t.configuredNow inp).toList.length ↔ n < t.infos.length := by
        refine ⟨fun h => ?_, by omega⟩
        have : (t.configuredNow inp).toList.length ≤ 1 := by
          cases t.configuredNow inp <;> simp
        omega
      simp [last, before, this]
  · -- the freed slot: at most one loop is left in flight, with room for one more
    rw [(inv.next_slot_freed frees rfl).1, eq_comm, decide_eq_false_iff_not, length]
    cases hnow : t.configuredNow inp with
    | none => simp; omega
    | some x =>
      have := (inv.configuredNow_spec hnow).1
      simp
      omega

include legal in
theorem next_fresh {n : ℕ} (first : (t.next L inp).first ≤ n) (recent : n < (t.next L inp).first + 2)
    (free : ((t.next L inp).slot n).configured = false) :
    ((t.next L inp).slot n).running = false ∧
      ∀ k, ((t.next L inp).slot n).started k = false ∧
        ((t.next L inp).slot n).completed k = false := by
  rcases next_window first recent with stays | ⟨frees, hn⟩
  · rw [inv.next_configured first recent, decide_eq_false_iff_not] at free
    have late : ¬n < t.infos.length := by
      have : (t.next L inp).infos.length = t.infos.length + _ := List.length_append
      omega
    have before := inv.fresh_of_late stays.first_le stays.lt_two late
    have noStart : ∀ k, t.state.starts L inp (slotOf t.start n) k = false := by
      intro k
      by_contra starts
      obtain ⟨u, _, _, h⟩ := inv.starts_spec legal stays.first_le stays.lt_two (by simpa using starts)
      exact late h.lt_length
    have noRun : ∀ f skips, n = t.infos.length → inp.config ≠ some (.run f skips) := by
      rintro f skips last hconfig
      apply free
      have room : t.infos.length < t.first + 2 := last ▸ stays.lt_two
      have now : t.configuredNow inp = some (f (t.state.loops t.state.being).cfg, skips) := by
        rw [Tracked.configuredNow, inv.taken_of_room room, hconfig]
      show n < (t.infos ++ (t.configuredNow inp).toList).length
      simp [now, last]
    refine ⟨?_, fun k => ⟨?_, ?_⟩⟩
    · rw [inv.next_slot stays]
      by_cases last : n = t.infos.length
      · simp [if_pos last, noStart, before.1]
      · simp [last, noStart, before.1]
    · rw [← Bool.not_eq_true, (inv.next_flags stays k).1]
      rintro (h | h | ⟨last, f, skips, h, _⟩)
      · rw [(before.2 k).1] at h
        cases h
      · rw [noStart] at h
        cases h
      · exact noRun f skips last h
    · rw [← Bool.not_eq_true, (inv.next_flags stays k).2]
      rintro (h | h | ⟨last, f, skips, h, _⟩)
      · rw [(before.2 k).2] at h
        cases h
      · obtain ⟨_, _, _, _, running, _⟩ := of_decide_eq_true h
        rw [← Tracked.slot, before.1] at running
        cases running
      · exact noRun f skips last h
  · exact (inv.next_slot_freed frees hn).2

include legal in
theorem next_working {u : U} (busy : (t.next L inp).state.busy u = true) :
    ∃ m c skips, (t.next L inp).serving u = some m ∧ (t.next L inp).first ≤ m ∧
      (t.next L inp).infos[m]? = some (c, skips) ∧ skips (L.stage u) = false ∧
      L.serves c u = true ∧ ((t.next L inp).slot m).started (L.stage u) = true ∧
      ((t.next L inp).slot m).completed (L.stage u) = false := by
  change (inp.fire u || (t.state.busy u && !inp.done u)) = true at busy
  cases fires : inp.fire u with
  | true =>
    obtain ⟨m, h⟩ := inv.takesUp (legal u fires)
    obtain ⟨c, skips, hinfo, notSkipped, serves⟩ := h.info
    have stays := h.stays inv
    refine ⟨m, c, skips, ?_, ?_, next_infos_of_getElem? hinfo, notSkipped, serves, ?_, ?_⟩
    · simp [Tracked.next, fires, h.number]
    · exact stays.next_first_le
    · rw [(inv.next_flags stays _).1]
      exact .inr (.inl (decide_eq_true ⟨u, fires, rfl, h.slot⟩))
    · rw [← Bool.not_eq_true, (inv.next_flags stays _).2]
      rintro (old | now | ⟨last, _⟩)
      · have := inv.completed m _ h.first_le h.lt_two old
        rw [h.notStarted] at this
        cases this
      · obtain ⟨_, _, _, _, _, started, _⟩ := of_decide_eq_true now
        rw [← Tracked.slot, h.notStarted] at started
        cases started
      · exact absurd last h.lt_length.ne
  | false =>
    rw [fires, Bool.false_or, Bool.and_eq_true] at busy
    obtain ⟨m, c, skips, hm, first, hinfo, notSkipped, serves, started, notCompleted⟩ :=
      inv.working u busy.1
    have bound := lt_of_getElem? hinfo
    have stays : Stays t m := by
      refine ⟨first, bound.trans_le inv.le_two, fun h => ?_⟩
      by_contra frees
      have all := (inv.frees_spec (by simpa using frees)).2 (L.stage u)
      rw [← h, notCompleted] at all
      cases all
    refine ⟨m, c, skips, ?_, ?_, next_infos_of_getElem? hinfo, notSkipped, serves, ?_, ?_⟩
    · simp [Tracked.next, fires, hm]
    · exact stays.next_first_le
    · rw [(inv.next_flags stays _).1]
      exact .inl started
    · rw [← Bool.not_eq_true, (inv.next_flags stays _).2]
      rintro (old | now | ⟨last, _⟩)
      · rw [notCompleted] at old
        cases old
      · -- the unit that would complete the stage is this one, which is busy
        obtain ⟨v, same, _, idle, _, _, serves'⟩ := of_decide_eq_true now
        rw [← Tracked.slot, (inv.info m c skips first hinfo).1] at serves'
        obtain rfl := L.serves_unique serves' serves same
        rw [busy.1] at idle
        cases idle
      · exact absurd last bound.ne

include legal in
theorem next_tookUp {n : ℕ} {c : C} {skips : S → Bool} {u : U} (first : (t.next L inp).first ≤ n)
    (hinfo : (t.next L inp).infos[n]? = some (c, skips)) (notSkipped : skips (L.stage u) = false)
    (serves : L.serves c u = true)
    (started : ((t.next L inp).slot n).started (L.stage u) = true) :
    ∃ m, (t.next L inp).serving u = some m ∧ n ≤ m := by
  have stays := inv.next_info_window first hinfo
  have old := stays.first_le
  have recent := stays.lt_two
  rw [(inv.next_flags stays _).1] at started
  rcases next_infos_cases hinfo with hinfo | ⟨last, now⟩
  · rcases started with started | now | ⟨last, _⟩
    · obtain ⟨m, hm, le⟩ := inv.tookUp n c skips u old hinfo notSkipped serves started
      cases fires : inp.fire u with
      | false => exact ⟨m, by simp [Tracked.next, fires, hm], le⟩
      | true =>
        -- a unit goes on to the next loop, never back
        obtain ⟨m', h⟩ := inv.takesUp (legal u fires)
        refine ⟨m', by simp [Tracked.next, fires, h.number], ?_⟩
        have := h.first_le
        by_contra back
        obtain rfl : n = t.first + 1 := by omega
        have first' := inv.order c skips _ hinfo notSkipped started
        obtain rfl : m' = t.first := by omega
        rw [h.notStarted] at first'
        cases first'
    · obtain ⟨v, fires, same, h⟩ := inv.starts_spec legal old recent now
      obtain ⟨c', skips', hinfo', _, serves'⟩ := h.info
      cases hinfo.symm.trans hinfo'
      obtain rfl := L.serves_unique serves' serves same
      exact ⟨n, by simp [Tracked.next, fires, h.number], le_rfl⟩
    · exact absurd last (lt_of_getElem? hinfo).ne
  · obtain ⟨room, f, hconfig, _⟩ := inv.configuredNow_spec now
    rcases started with started | now | ⟨_, f', skips', hconfig', skipped⟩
    · rw [((inv.fresh_of_late old recent (by omega)).2 _).1] at started
      cases started
    · obtain ⟨v, _, _, h⟩ := inv.starts_spec legal old recent now
      exact absurd last h.lt_length.ne
    · cases hconfig.symm.trans hconfig'
      exact absurd skipped (by simp [notSkipped])

theorem next_le_two : (t.next L inp).infos.length ≤ (t.next L inp).first + 2 := by
  have length : (t.next L inp).infos.length =
      t.infos.length + (t.configuredNow inp).toList.length := List.length_append
  have := inv.le_two
  have grows : t.first ≤ (t.next L inp).first := by
    rw [next_first]
    split <;> omega
  cases hnow : t.configuredNow inp with
  | none =>
    simp [hnow] at length
    omega
  | some x =>
    have := (inv.configuredNow_spec hnow).1
    simp [hnow] at length
    omega

theorem next_info {n : ℕ} {c : C} {skips : S → Bool}
    (first : (t.next L inp).first ≤ n) (hinfo : (t.next L inp).infos[n]? = some (c, skips)) :
    ((t.next L inp).slot n).cfg = c ∧ ∀ k, skips k = true →
      ((t.next L inp).slot n).started k = true ∧ ((t.next L inp).slot n).completed k = true := by
  have stays := inv.next_info_window first hinfo
  rcases next_infos_cases hinfo with hinfo | ⟨last, now⟩
  · obtain ⟨hcfg, flags⟩ := inv.info n c skips stays.first_le hinfo
    refine ⟨?_, fun k skipped => ⟨?_, ?_⟩⟩
    · rw [inv.next_slot stays, if_neg (lt_of_getElem? hinfo).ne]
      exact hcfg
    · rw [(inv.next_flags stays k).1]
      exact .inl (flags k skipped).1
    · rw [(inv.next_flags stays k).2]
      exact .inl (flags k skipped).2
  · obtain ⟨_, f, hconfig, hc⟩ := inv.configuredNow_spec now
    refine ⟨?_, fun k skipped => ⟨?_, ?_⟩⟩
    · rw [inv.next_slot stays, if_pos last, hconfig]
      exact (last ▸ hc).symm
    · rw [(inv.next_flags stays k).1]
      exact .inr (.inr ⟨last, f, skips, hconfig, skipped⟩)
    · rw [(inv.next_flags stays k).2]
      exact .inr (.inr ⟨last, f, skips, hconfig, skipped⟩)

theorem next_completed {n : ℕ} {k : S} (first : (t.next L inp).first ≤ n)
    (recent : n < (t.next L inp).first + 2)
    (completed : ((t.next L inp).slot n).completed k = true) :
    ((t.next L inp).slot n).started k = true := by
  rcases next_window first recent with stays | ⟨frees, hn⟩
  · rw [(inv.next_flags stays k).2] at completed
    rw [(inv.next_flags stays k).1]
    rcases completed with h | h | h
    · exact .inl (inv.completed n k stays.first_le stays.lt_two h)
    · obtain ⟨_, _, _, _, _, started, _⟩ := of_decide_eq_true h
      exact .inl started
    · exact .inr (.inr h)
  · rw [((inv.next_slot_freed frees hn).2.2 k).2] at completed
    cases completed

include legal in
theorem next_order {c : C} {skips : S → Bool} {k : S}
    (hinfo : (t.next L inp).infos[(t.next L inp).first + 1]? = some (c, skips))
    (notSkipped : skips k = false)
    (started : ((t.next L inp).slot ((t.next L inp).first + 1)).started k = true) :
    ((t.next L inp).slot (t.next L inp).first).started k = true := by
  cases frees : t.state.frees with
  | true =>
    have hfirst : (t.next L inp).first + 1 = t.first + 2 := by simp [next_first, frees]
    rw [((inv.next_slot_freed frees hfirst).2.2 k).1] at started
    cases started
  | false =>
    have hfirst : (t.next L inp).first = t.first := by simp [next_first, frees]
    rw [hfirst] at hinfo started ⊢
    rw [(inv.next_flags ⟨by omega, by omega, by omega⟩ k).1] at started
    rw [(inv.next_flags ⟨le_rfl, by omega, fun _ => frees⟩ k).1]
    refine .inl ?_
    rcases started with old | now | ⟨last, f, skips', hconfig, skipped⟩
    · rcases next_infos_cases hinfo with h | ⟨last, now⟩
      · exact inv.order c skips k h notSkipped old
      · rw [((inv.fresh_of_late (by omega) (by omega) (by omega)).2 k).1] at old
        cases old
    · obtain ⟨u, _, rfl, h⟩ := inv.starts_spec legal (by omega) (by omega) now
      exact (h.after (by omega)).2
    · rcases next_infos_cases hinfo with h | ⟨_, now⟩
      · exact absurd last (lt_of_getElem? h).ne
      · obtain ⟨_, f', hconfig', _⟩ := inv.configuredNow_spec now
        cases hconfig.symm.trans hconfig'
        exact absurd skipped (by simp [notSkipped])

include legal in
theorem next_served {u : U} {m : ℕ} (serving : (t.next L inp).serving u = some m) :
    m < (t.next L inp).infos.length ∧ (t.next L inp).state.loopId u = slotOf t.start m := by
  have grows : t.infos.length ≤ (t.next L inp).infos.length := by
    show _ ≤ (t.infos ++ _).length
    simp
  change (if inp.fire u then some (t.numberOf (t.state.requesting (L.stage u))) else
    t.serving u) = some m at serving
  show _ ∧ (if inp.fire u then t.state.requesting (L.stage u) else t.state.loopId u) = _
  cases fires : inp.fire u with
  | true =>
    obtain ⟨m', h⟩ := inv.takesUp (legal u fires)
    rw [fires, if_pos rfl, h.number] at serving
    obtain rfl := Option.some.inj serving
    exact ⟨h.lt_length.trans_le grows, h.slot⟩
  | false =>
    rw [fires, if_neg (by simp)] at serving
    obtain ⟨bound, same⟩ := inv.served u m serving
    exact ⟨bound.trans_le grows, same⟩

include legal in
/-- A cycle in which units are only given requests they may be given keeps the invariant. -/
theorem next : Inv L (t.next L inp) := by
  constructor
  · show (if t.state.frees then !t.state.head else t.state.head) = slotOf t.start (t.next L inp).first
    rw [next_first]
    split
    · rw [slotOf_succ, inv.head]
    · exact inv.head
  · show (t.next L inp).first ≤ (t.infos ++ _).length
    rw [next_first, List.length_append]
    split
    · rename_i frees
      have := (inv.frees_spec frees).1
      omega
    · have := inv.first_le
      omega
  · exact inv.next_le_two
  · exact fun n => inv.next_configured
  · exact fun n => inv.next_fresh legal
  · exact fun n c skips => inv.next_info
  · exact fun n k => inv.next_completed
  · exact fun c skips k => inv.next_order legal
  · exact fun u m => inv.next_served legal
  · exact fun u => inv.next_working legal
  · exact fun n c skips u => inv.next_tookUp legal

end Cycle

end Inv

end Gemmini.Slots
