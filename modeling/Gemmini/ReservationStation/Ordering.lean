import Gemmini.ReservationStation.Model

/-!
# Which commands the reservation station orders

An observer numbers the commands in allocation order and notes which have been issued and completed.  An
unissued command has the bit of every live older command that the allocation equations order it after.
-/

namespace Gemmini.ReservationStation

variable {cfg : Config}

abbrev Slot (cfg : Config) := (q : Queue) × Fin (cfg.entries q)

/-! ### The observed history -/

structure Tracked (cfg : Config) where
  state : State cfg
  log : List (Entry cfg)
  /-- The number of the command that was last allocated into a slot. -/
  owner : (q : Queue) → Fin (cfg.entries q) → Nat
  issued : List Nat
  completed : List Nat

namespace Tracked

variable (t : Tracked cfg) (inp : Input cfg)

def issuedNow : List Nat :=
  [Queue.ld, Queue.ex, Queue.st].filterMap fun q => (issueFire t.state inp q).map (t.owner q)

/-- The commands that complete: the one named by the controllers, and those that complete on issue. -/
def completedNow : List Nat :=
  (inp.completed.map fun slot => t.owner slot.1 slot.2).toList ++
    [Queue.ld, Queue.ex, Queue.st].filterMap fun q =>
      ((issueFire t.state inp q).filter fun i => (t.state.entries q i).bits.completeOnIssue).map
        (t.owner q)

def next : Tracked cfg where
  state := step t.state inp
  log := t.log ++ (allocFire t.state inp).toList.map fun a => a.2.2
  owner q i := match allocFire t.state inp with
    | none => t.owner q i
    | some ⟨p, j, _⟩ => if (⟨p, j⟩ : Slot cfg) = ⟨q, i⟩ then t.log.length else t.owner q i
  issued := t.issued ++ t.issuedNow inp
  completed := t.completed ++ t.completedNow inp

end Tracked

/-- The environment: a completion names a command that was issued and has not completed. -/
def CompletesIssued (s : State cfg) (inp : Input cfg) : Prop :=
  ∀ q i, inp.completed = some ⟨q, i⟩ →
    (s.entries q i).valid = true ∧ (s.entries q i).bits.issued = true

def machine (cfg : Config) : Machine (Tracked cfg) (Input cfg) where
  init t := t.state.Init ∧ t.log = [] ∧ t.issued = [] ∧ t.completed = []
  legal t inp := CompletesIssued t.state inp
  step := Tracked.next

instance (t : Tracked cfg) (inp : Input cfg) : Decidable ((machine cfg).legal t inp) :=
  inferInstanceAs (Decidable (∀ q i, inp.completed = some ⟨q, i⟩ → _ ∧ _))

/-! ### Conflicts -/

def Entry.Writes (e : Entry cfg) (r : OpT) : Prop :=
  e.opa.valid = true ∧ e.opaIsDst = true ∧ e.opa.bits = r

def Entry.Accesses (e : Entry cfg) (r : OpT) : Prop :=
  (e.opa.valid = true ∧ e.opa.bits = r) ∨ (e.opb.valid = true ∧ e.opb.bits = r)

/-- The ranges that the tables keep: load and store slots lose `opb`. -/
def Entry.Keeps (e : Entry cfg) (r : OpT) : Prop :=
  (e.opa.valid = true ∧ e.opa.bits = r) ∨ (e.q = .ex ∧ e.opb.valid = true ∧ e.opb.bits = r)

open Entry (Accesses Writes Keeps)

/-- Two commands access ranges related by `R`, at least one of them writing. -/
def ConflictBy (R : OpT → OpT → Prop) (x y : Entry cfg) : Prop :=
  ∃ r r', ((x.Writes r ∧ y.Accesses r') ∨ (x.Accesses r ∧ y.Writes r')) ∧ R r r'

/-- A conflict that the allocation equations see: the older command by what its slot keeps. -/
def Clash (x y : Entry cfg) : Prop :=
  ∃ r r', ((x.Writes r ∧ y.Accesses r') ∨ (x.Keeps r ∧ y.Writes r')) ∧
    r'.overlaps cfg.geometry r = true

/-! ### The allocation equations -/

theorem newEntry_not_config_of_accesses {s : State cfg} {c : Cmd} {r : OpT}
    (h : (newEntry s c).Accesses r) : c.isConfig = false := by
  rcases c with ⟨f, rs1, rs2⟩
  cases f <;>
    simp_all [Accesses, newEntry, newOpa, newOpb, op1, op2, dst, Cmd.dstValid, Cmd.op1Valid,
      Cmd.op2Valid, Cmd.functIsCompute, Cmd.isConfig]

theorem Entry.Writes.accesses {e : Entry cfg} {r : OpT} (h : e.Writes r) : e.Accesses r :=
  .inl ⟨h.1, h.2.2⟩

theorem newEntry_ld {s : State cfg} {c : Cmd} (hq : c.q = .ld) {r : OpT}
    (h : (newEntry s c).Accesses r) : (newOpa s c).bits = r := by
  rcases c with ⟨f, rs1, rs2⟩
  cases f <;>
    simp_all [Accesses, newEntry, newOpa, newOpb, op2, dst, Cmd.dstValid, Cmd.op1Valid,
      Cmd.op2Valid, Cmd.functIsCompute, Cmd.isConfig, Cmd.q, Cmd.isLoad, Cmd.isStore]

theorem newEntry_st {s : State cfg} {c : Cmd} (hq : c.q = .st) (hd : c.dstValid = false) {r : OpT}
    (h : (newEntry s c).Accesses r) : (newOpa s c).bits = r := by
  rcases c with ⟨f, rs1, rs2⟩
  cases f <;>
    simp_all [Accesses, newEntry, newOpa, newOpb, op2, Cmd.dstValid, Cmd.op1Valid,
      Cmd.op2Valid, Cmd.functIsCompute, Cmd.isConfig, Cmd.q, Cmd.isLoad, Cmd.isStore]

structure Entry.Holds (e x : Entry cfg) (q : Queue) : Prop where
  q_eq : x.q = q
  opa : e.opa = x.opa
  opaIsDst : e.opaIsDst = x.opaIsDst
  opb : q = .ex → e.opb = x.opb

theorem newDep_of_clash {s : State cfg} {c : Cmd} {q : Queue} {i : Fin (cfg.entries q)}
    {x : Entry cfg} (valid : (s.entries q i).valid = true)
    (holds : (s.entries q i).bits.Holds x q) (other : q ≠ c.q) (clash : Clash x (newEntry s c)) :
    newDep s c q i = true := by
  obtain ⟨r, r', access, overlap⟩ := clash
  have notConfig : c.isConfig = false := by
    rcases access with ⟨_, h⟩ | ⟨_, h⟩
    · exact newEntry_not_config_of_accesses h
    · exact newEntry_not_config_of_accesses h.accesses
  have hopa := holds.opa
  have hdst := holds.opaIsDst
  have hopb := holds.opb
  have hq := holds.q_eq
  unfold newDep
  cases hc : c.q with
  | ld =>
    have hr : (newOpa s c).bits = r' := by
      rcases access with ⟨_, h⟩ | ⟨_, h⟩
      · exact newEntry_ld hc h
      · exact h.2.2
    cases q with
    | ld => exact absurd hc.symm other
    | ex | st => rcases access with ⟨h, _⟩ | ⟨h, _⟩ <;> grind [Writes, Keeps]
  | ex =>
    cases q with
    | ex => exact absurd hc.symm other
    | ld | st =>
      rcases access with ⟨h, h'⟩ | ⟨h, h'⟩ <;>
        grind [Writes, Keeps, Accesses, newEntry]
  | st =>
    cases q with
    | st => exact absurd hc.symm other
    | ld =>
      rcases access with ⟨h, h'⟩ | ⟨h, h'⟩ <;>
        grind [Writes, Keeps, Accesses, newEntry]
    | ex =>
      -- a store that writes nothing reads the same range through both operands
      cases hd : c.dstValid with
      | true =>
        rcases access with ⟨h, h'⟩ | ⟨h, h'⟩ <;>
          grind [Writes, Keeps, Accesses, newEntry]
      | false =>
        rcases access with ⟨h, h'⟩ | ⟨h, h'⟩
        · have hr := newEntry_st hc hd h'
          grind [Writes]
        · grind [Writes, newEntry]

/-! ### One cycle, slot by slot -/

section Slots

variable {s : State cfg} {inp : Input cfg} {q : Queue} {i : Fin (cfg.entries q)}

theorem issueFire_spec (h : issueFire s inp q = some i) :
    (s.entries q i).valid = true ∧ (∀ p j, (s.entries q i).bits.deps p j = false) ∧
      (s.entries q i).bits.issued = false := by
  unfold issueFire at h
  split at h
  · have sel := List.find?_some h
    simp only [issueValid, Bool.and_eq_true, Bool.not_eq_true', Entry.ready,
      decide_eq_true_eq] at sel
    exact ⟨sel.1.1, sel.1.2, sel.2⟩
  · cases h

theorem allocFire_spec {e : Entry cfg} (h : allocFire s inp = some ⟨q, i, e⟩) :
    ∃ c, inp.alloc = some c ∧ c.q = q ∧ e = newEntry s c ∧ (s.entries q i).valid = false := by
  unfold allocFire at h
  split at h
  · cases h
  · rename_i c hc
    split at h
    · cases h
    · rename_i j hj
      obtain ⟨rfl, h⟩ := Sigma.mk.inj (Option.some.inj h)
      obtain ⟨rfl, rfl⟩ := Prod.mk.inj (eq_of_heq h)
      have free := List.find?_some hj
      exact ⟨c, hc, rfl, rfl, by simpa using free⟩

theorem slot_ne_of_valid {p : Queue} {j : Fin (cfg.entries p)} {e : Entry cfg}
    (ha : allocFire s inp = some ⟨p, j, e⟩) (h : (s.entries q i).valid = true) :
    (⟨p, j⟩ : Slot cfg) ≠ ⟨q, i⟩ := by
  obtain ⟨_, _, _, _, free⟩ := allocFire_spec ha
  intro same
  obtain ⟨rfl, same⟩ := Sigma.mk.inj same
  obtain rfl := eq_of_heq same
  rw [h] at free
  cases free

theorem afterAlloc_of_fire {e : Entry cfg} (h : allocFire s inp = some ⟨q, i, e⟩) :
    afterAlloc s inp q i = ⟨true, e⟩ := by
  simp [afterAlloc, h]

theorem afterAlloc_of_valid (h : (s.entries q i).valid = true) :
    afterAlloc s inp q i = s.entries q i := by
  unfold afterAlloc
  split
  · rfl
  · rename_i ha
    rw [if_neg (slot_ne_of_valid ha h)]

theorem nextEntry_valid : (nextEntry s inp q i).valid =
    ((if issueFire s inp q = some i then !(s.entries q i).bits.completeOnIssue
      else (afterAlloc s inp q i).valid) && !completes inp q i) := by
  unfold nextEntry
  split <;> simp [afterComplete, afterIssue]

theorem nextEntry_issued : (nextEntry s inp q i).bits.issued =
    (decide (issueFire s inp q = some i) || (afterAlloc s inp q i).bits.issued) := by
  unfold nextEntry
  split <;> simp [afterComplete, afterIssue]

theorem nextEntry_deps (p : Queue) (j : Fin (cfg.entries p)) :
    (nextEntry s inp q i).bits.deps p j =
      ((afterAlloc s inp q i).bits.deps p j && !issueClears s inp q p j && !completes inp p j) := by
  unfold nextEntry
  split <;> simp [afterComplete, afterIssue]

theorem nextEntry_holds {x : Entry cfg} (h : (afterAlloc s inp q i).bits.Holds x q) :
    (nextEntry s inp q i).bits.Holds x q := by
  obtain ⟨hq, hopa, hdst, hopb⟩ := h
  unfold nextEntry
  split
  · exact ⟨hq, hopa, hdst, hopb⟩
  · rename_i notEx
    exact ⟨hq, hopa, hdst, fun isEx => absurd isEx notEx⟩

/-- A slot that is valid after the edge was allocated in this cycle, or it was valid before and did
not complete. -/
theorem nextEntry_valid_cases (valid : (nextEntry s inp q i).valid = true) :
    inp.completed ≠ some ⟨q, i⟩ ∧
      ((∃ c, allocFire s inp = some ⟨q, i, newEntry s c⟩ ∧ c.q = q ∧
          issueFire s inp q ≠ some i ∧ afterAlloc s inp q i = ⟨true, newEntry s c⟩) ∨
        ((s.entries q i).valid = true ∧
          (issueFire s inp q = some i → (s.entries q i).bits.completeOnIssue = false) ∧
          afterAlloc s inp q i = s.entries q i)) := by
  rw [nextEntry_valid, Bool.and_eq_true, Bool.not_eq_true'] at valid
  obtain ⟨valid, notCompleted⟩ := valid
  refine ⟨by simpa [completes] using notCompleted, ?_⟩
  by_cases old : (s.entries q i).valid = true
  · refine .inr ⟨old, fun fires => ?_, afterAlloc_of_valid old⟩
    simpa [fires] using valid
  · have quiet : issueFire s inp q ≠ some i := fun fires => old (issueFire_spec fires).1
    rw [if_neg quiet] at valid
    unfold afterAlloc at valid
    split at valid
    · exact absurd valid old
    · rename_i p j e ha
      split at valid
      · rename_i same
        obtain ⟨rfl, same⟩ := Sigma.mk.inj same
        obtain rfl := eq_of_heq same
        obtain ⟨c, _, hq, rfl, _⟩ := allocFire_spec ha
        exact .inl ⟨c, ha, hq, quiet, afterAlloc_of_fire ha⟩
      · exact absurd valid old

theorem nextEntry_valid_of_valid (old : (s.entries q i).valid = true)
    (notCompleted : inp.completed ≠ some ⟨q, i⟩)
    (stays : issueFire s inp q = some i → (s.entries q i).bits.completeOnIssue = false) :
    (nextEntry s inp q i).valid = true := by
  rw [nextEntry_valid, afterAlloc_of_valid old]
  by_cases fires : issueFire s inp q = some i
  · simp [fires, stays fires, completes, notCompleted]
  · simp [fires, old, completes, notCompleted]

theorem nextEntry_valid_of_fire {e : Entry cfg} (legal : CompletesIssued s inp)
    (ha : allocFire s inp = some ⟨q, i, e⟩) : (nextEntry s inp q i).valid = true := by
  obtain ⟨_, _, _, _, free⟩ := allocFire_spec ha
  have quiet : issueFire s inp q ≠ some i := by
    intro fires
    rw [(issueFire_spec fires).1] at free
    cases free
  have notCompleted : inp.completed ≠ some ⟨q, i⟩ := by
    intro done
    rw [(legal q i done).1] at free
    cases free
  rw [nextEntry_valid, afterAlloc_of_fire ha]
  simp [quiet, completes, notCompleted]

end Slots

/-! ### The invariant -/

/-- The older command `x` holds back `y` while it is live (within the load or execute queue, while it is
not issued). -/
def HoldsBack (x y : Entry cfg) (xIssued : Bool) : Prop :=
  (x.q ≠ y.q ∧ Clash x y) ∨ (x.q = y.q ∧ (x.q = .st ∨ xIssued = false))

/-- The tables agree with the history; an unissued command has the bits of the live ones that hold it
back. -/
structure Inv (t : Tracked cfg) : Prop where
  recorded : ∀ x ∈ t.log, ∃ (s : State cfg) (c : Cmd), x = newEntry s c
  holds : ∀ q i, (t.state.entries q i).valid = true →
    ∃ x, t.log[t.owner q i]? = some x ∧ (t.state.entries q i).bits.Holds x q
  live : ∀ n < t.log.length, n ∈ t.completed ∨
    ∃ q i, (t.state.entries q i).valid = true ∧ t.owner q i = n
  issued : ∀ q i, (t.state.entries q i).valid = true →
    (t.state.entries q i).bits.issued = true → t.owner q i ∈ t.issued
  completed : ∀ n ∈ t.completed, n ∈ t.issued
  deps : ∀ q i p j x y, (t.state.entries q i).valid = true →
    (t.state.entries q i).bits.issued = false → (t.state.entries p j).valid = true →
    t.owner p j < t.owner q i → t.log[t.owner p j]? = some x → t.log[t.owner q i]? = some y →
    HoldsBack x y (t.state.entries p j).bits.issued → (t.state.entries q i).bits.deps p j = true

namespace Inv

variable {t : Tracked cfg} {inp : Input cfg}

theorem owner_lt (inv : Inv t) {q : Queue} {i : Fin (cfg.entries q)}
    (valid : (t.state.entries q i).valid = true) : t.owner q i < t.log.length := by
  obtain ⟨x, hx, _⟩ := inv.holds q i valid
  exact (List.getElem?_eq_some_iff.mp hx).1

theorem init (h : (machine cfg).init t) : Inv t := by
  obtain ⟨reset, log, issued, completed⟩ := h
  have empty : ∀ q i, ¬(t.state.entries q i).valid = true := fun q i => by simp [reset.entries q i]
  exact
    { recorded := by simp [log]
      holds := fun q i valid => absurd valid (empty q i)
      live := by simp [log]
      issued := fun q i valid => absurd valid (empty q i)
      completed := by simp [completed]
      deps := fun q i _ _ _ _ valid => absurd valid (empty q i) }

end Inv

namespace Tracked

variable {t : Tracked cfg} {inp : Input cfg}

@[simp] theorem next_entries : (t.next inp).state.entries = nextEntry t.state inp := rfl

section

variable {q : Queue} {i : Fin (cfg.entries q)}

theorem next_owner_of_fire {e : Entry cfg} (h : allocFire t.state inp = some ⟨q, i, e⟩) :
    (t.next inp).owner q i = t.log.length := by
  simp [next, h]

theorem next_owner_of_valid (h : (t.state.entries q i).valid = true) :
    (t.next inp).owner q i = t.owner q i := by
  simp only [next]
  split
  · rfl
  · rename_i ha
    rw [if_neg (slot_ne_of_valid ha h)]

theorem next_log_of_fire {e : Entry cfg} (h : allocFire t.state inp = some ⟨q, i, e⟩) :
    (t.next inp).log = t.log ++ [e] := by
  simp [next, h]

end

theorem next_log_getElem? {n : Nat} (h : n < t.log.length) :
    (t.next inp).log[n]? = t.log[n]? := by
  exact List.getElem?_append_left h

theorem mem_issuedNow {n : Nat} :
    n ∈ t.issuedNow inp ↔ ∃ q i, issueFire t.state inp q = some i ∧ t.owner q i = n := by
  constructor
  · intro h
    obtain ⟨q, _, h⟩ := List.mem_filterMap.mp h
    obtain ⟨i, fires, rfl⟩ := Option.map_eq_some_iff.mp h
    exact ⟨q, i, fires, rfl⟩
  · rintro ⟨q, i, fires, rfl⟩
    refine List.mem_filterMap.mpr ⟨q, by cases q <;> simp, ?_⟩
    rw [fires, Option.map_some]

theorem mem_completedNow {n : Nat} :
    n ∈ t.completedNow inp ↔ ∃ q i, t.owner q i = n ∧ (inp.completed = some ⟨q, i⟩ ∨
      (issueFire t.state inp q = some i ∧ (t.state.entries q i).bits.completeOnIssue = true)) := by
  unfold completedNow
  rw [List.mem_append]
  constructor
  · rintro (h | h)
    · obtain ⟨⟨q, i⟩, hc, rfl⟩ := Option.map_eq_some_iff.mp (Option.mem_toList.mp h)
      exact ⟨q, i, rfl, .inl hc⟩
    · obtain ⟨q, _, h⟩ := List.mem_filterMap.mp h
      obtain ⟨i, fires, rfl⟩ := Option.map_eq_some_iff.mp h
      exact ⟨q, i, rfl, .inr (Option.filter_eq_some_iff.mp fires)⟩
  · rintro ⟨q, i, rfl, hc | ⟨fires, onIssue⟩⟩
    · exact .inl (Option.mem_toList.mpr (by rw [hc]; rfl))
    · refine .inr (List.mem_filterMap.mpr ⟨q, by cases q <;> simp, ?_⟩)
      rw [Option.filter_eq_some_iff.mpr ⟨fires, onIssue⟩, Option.map_some]

theorem next_slot {q : Queue} {i : Fin (cfg.entries q)}
    (valid : (nextEntry t.state inp q i).valid = true) :
    inp.completed ≠ some ⟨q, i⟩ ∧
      ((∃ c, allocFire t.state inp = some ⟨q, i, newEntry t.state c⟩ ∧ c.q = q ∧
          issueFire t.state inp q ≠ some i ∧
          afterAlloc t.state inp q i = ⟨true, newEntry t.state c⟩ ∧
          (t.next inp).owner q i = t.log.length ∧
          (t.next inp).log[t.log.length]? = some (newEntry t.state c)) ∨
        ((t.state.entries q i).valid = true ∧
          (issueFire t.state inp q = some i →
            (t.state.entries q i).bits.completeOnIssue = false) ∧
          afterAlloc t.state inp q i = t.state.entries q i ∧
          (t.next inp).owner q i = t.owner q i)) := by
  obtain ⟨notCompleted, ⟨c, ha, hq, quiet, after⟩ | ⟨old, stays, after⟩⟩ :=
    nextEntry_valid_cases valid
  · refine ⟨notCompleted, .inl ⟨c, ha, hq, quiet, after, next_owner_of_fire ha, ?_⟩⟩
    simp [next_log_of_fire ha]
  · exact ⟨notCompleted, .inr ⟨old, stays, after, next_owner_of_valid old⟩⟩

end Tracked

namespace Inv

variable {t : Tracked cfg} {inp : Input cfg}

variable (inv : Inv t)
include inv

theorem recorded_next : ∀ x ∈ (t.next inp).log, ∃ (s : State cfg) (c : Cmd), x = newEntry s c := by
  intro x hx
  rcases List.mem_append.mp hx with old | new
  · exact inv.recorded x old
  · obtain ⟨⟨q, i, e⟩, ha, rfl⟩ := List.mem_map.mp new
    obtain ⟨c, _, _, rfl, _⟩ := allocFire_spec (Option.mem_toList.mp ha)
    exact ⟨t.state, c, rfl⟩

theorem holds_next (inp : Input cfg) (q : Queue) (i : Fin (cfg.entries q))
    (valid : ((t.next inp).state.entries q i).valid = true) :
    ∃ x, (t.next inp).log[(t.next inp).owner q i]? = some x ∧
      ((t.next inp).state.entries q i).bits.Holds x q := by
  obtain ⟨_, ⟨c, _, hq, _, after, owner, log⟩ | ⟨old, _, after, owner⟩⟩ := Tracked.next_slot valid
  · refine ⟨newEntry t.state c, by rw [owner, log], nextEntry_holds ?_⟩
    rw [after]
    exact ⟨hq, rfl, rfl, fun _ => rfl⟩
  · obtain ⟨x, hx, holds⟩ := inv.holds q i old
    refine ⟨x, ?_, nextEntry_holds (by rw [after]; exact holds)⟩
    rw [owner, Tracked.next_log_getElem? (inv.owner_lt old), hx]

theorem live_next (legal : CompletesIssued t.state inp) (n : Nat) (hn : n < (t.next inp).log.length) :
    n ∈ (t.next inp).completed ∨
      ∃ q i, ((t.next inp).state.entries q i).valid = true ∧ (t.next inp).owner q i = n := by
  by_cases older : n < t.log.length
  · rcases inv.live n older with done | ⟨q, i, valid, rfl⟩
    · exact .inl (List.mem_append_left _ done)
    · by_cases leaves : t.owner q i ∈ t.completedNow inp
      · exact .inl (List.mem_append_right _ leaves)
      · refine .inr ⟨q, i, ?_, Tracked.next_owner_of_valid valid⟩
        rw [Tracked.mem_completedNow] at leaves
        apply nextEntry_valid_of_valid valid
        · exact fun h => leaves ⟨q, i, rfl, .inl h⟩
        · intro fires
          by_contra onIssue
          exact leaves ⟨q, i, rfl, .inr ⟨fires, by simpa using onIssue⟩⟩
  · -- the only command beyond the old history is the one allocated now
    cases ha : allocFire t.state inp with
    | none => simp [Tracked.next, ha] at hn; omega
    | some a =>
      obtain ⟨q, i, e⟩ := a
      rw [Tracked.next_log_of_fire ha, List.length_append, List.length_singleton] at hn
      refine .inr ⟨q, i, nextEntry_valid_of_fire legal ha, ?_⟩
      rw [Tracked.next_owner_of_fire ha]
      omega

theorem issued_next (q : Queue) (i : Fin (cfg.entries q))
    (valid : ((t.next inp).state.entries q i).valid = true)
    (issued : ((t.next inp).state.entries q i).bits.issued = true) :
    (t.next inp).owner q i ∈ (t.next inp).issued := by
  rw [Tracked.next_entries, nextEntry_issued, Bool.or_eq_true, decide_eq_true_eq] at issued
  obtain ⟨_, ⟨c, _, _, quiet, after, _, _⟩ | ⟨old, _, after, owner⟩⟩ := Tracked.next_slot valid
  · rcases issued with fires | flag
    · exact absurd fires quiet
    · rw [after] at flag
      cases flag
  · rw [owner]
    rcases issued with fires | flag
    · exact List.mem_append_right _ (Tracked.mem_issuedNow.mpr ⟨q, i, fires, rfl⟩)
    · rw [after] at flag
      exact List.mem_append_left _ (inv.issued q i old flag)

theorem completed_next (legal : CompletesIssued t.state inp) (n : Nat) (hn : n ∈ (t.next inp).completed) :
    n ∈ (t.next inp).issued := by
  rcases List.mem_append.mp hn with before | now
  · exact List.mem_append_left _ (inv.completed n before)
  · obtain ⟨q, i, rfl, done | ⟨fires, _⟩⟩ := Tracked.mem_completedNow.mp now
    · obtain ⟨valid, issued⟩ := legal q i done
      exact List.mem_append_left _ (inv.issued q i valid issued)
    · exact List.mem_append_right _ (Tracked.mem_issuedNow.mpr ⟨q, i, fires, rfl⟩)

theorem deps_afterAlloc {q p : Queue} {i : Fin (cfg.entries q)} {j : Fin (cfg.entries p)} {x y : Entry cfg}
    (valid : (nextEntry t.state inp q i).valid = true)
    (unissued : (afterAlloc t.state inp q i).bits.issued = false)
    (live : (t.state.entries p j).valid = true) (older : t.owner p j < (t.next inp).owner q i)
    (hx : t.log[t.owner p j]? = some x) (hy : (t.next inp).log[(t.next inp).owner q i]? = some y)
    (back : HoldsBack x y (t.state.entries p j).bits.issued) :
    (afterAlloc t.state inp q i).bits.deps p j = true := by
  obtain ⟨x', hx', holds⟩ := inv.holds p j live
  obtain rfl : x' = x := Option.some.inj (hx'.symm.trans hx)
  obtain ⟨_, ⟨c, _, hq, _, after, owner, log⟩ | ⟨old, _, after, owner⟩⟩ := Tracked.next_slot valid
  · rw [owner, log] at hy
    obtain rfl := Option.some.inj hy
    rw [after]
    show newDep t.state c p j = true
    have hxq := holds.q_eq
    rcases back with ⟨other, clash⟩ | ⟨same, store | unissuedX⟩
    · exact newDep_of_clash live holds (by rw [← hxq]; exact other) clash
    · have hp : p = .st := hxq.symm.trans store
      have hc : c.q = .st := same.symm.trans store
      subst hp
      simp [newDep, hc, live]
    · have hc : c.q = p := same.symm.trans hxq
      unfold newDep
      cases p <;> simp [hc, live, unissuedX]
  · rw [owner] at hy older
    rw [Tracked.next_log_getElem? (inv.owner_lt old)] at hy
    rw [after] at unissued ⊢
    exact inv.deps q i p j x' y old unissued live older hx hy back

theorem deps_next (q : Queue) (i : Fin (cfg.entries q)) (p : Queue) (j : Fin (cfg.entries p))
    (x y : Entry cfg) (valid : ((t.next inp).state.entries q i).valid = true)
    (unissued : ((t.next inp).state.entries q i).bits.issued = false)
    (live : ((t.next inp).state.entries p j).valid = true)
    (older : (t.next inp).owner p j < (t.next inp).owner q i)
    (hx : (t.next inp).log[(t.next inp).owner p j]? = some x)
    (hy : (t.next inp).log[(t.next inp).owner q i]? = some y)
    (back : HoldsBack x y ((t.next inp).state.entries p j).bits.issued) :
    ((t.next inp).state.entries q i).bits.deps p j = true := by
  rw [Tracked.next_entries] at valid unissued live back ⊢
  rw [nextEntry_issued, Bool.or_eq_false_iff] at unissued
  obtain ⟨notCompleted, ⟨c, _, _, _, _, owner, _⟩ | ⟨old, stays, after, owner⟩⟩ :=
    Tracked.next_slot (t := t) live
  · -- a command allocated now is older than nothing
    obtain ⟨_, ⟨_, _, _, _, _, owner', _⟩ | ⟨old', _, _, owner'⟩⟩ := Tracked.next_slot (t := t) valid
    · omega
    · have := inv.owner_lt old'
      omega
  · obtain ⟨x', hx', holdsX⟩ := inv.holds p j old
    obtain ⟨y', hy', holdsY⟩ := inv.holds_next inp q i valid
    obtain rfl : y' = y := Option.some.inj (hy'.symm.trans hy)
    rw [owner, Tracked.next_log_getElem? (inv.owner_lt old)] at hx
    obtain rfl : x' = x := Option.some.inj (hx'.symm.trans hx)
    rw [nextEntry_issued, after] at back
    have backBefore : HoldsBack x' y' (t.state.entries p j).bits.issued := by
      rcases back with h | ⟨same, store | flag⟩
      · exact .inl h
      · exact .inr ⟨same, .inl store⟩
      · exact .inr ⟨same, .inr (Bool.or_eq_false_iff.mp flag).2⟩
    have kept : issueClears t.state inp q p j = false := by
      by_contra clears
      simp only [issueClears, Bool.and_eq_true, Bool.not_eq_false, Bool.or_eq_true,
        decide_eq_true_eq] at clears
      obtain ⟨fires, ⟨rfl, notStore⟩ | onIssue⟩ := clears
      · rcases back with ⟨other, _⟩ | ⟨_, store | flag⟩
        · exact other (holdsX.q_eq.trans holdsY.q_eq.symm)
        · exact notStore (holdsX.q_eq.symm.trans store)
        · simp [fires] at flag
      · rw [stays fires] at onIssue
        cases onIssue
    rw [nextEntry_deps, inv.deps_afterAlloc valid unissued.2 old (owner ▸ older) hx hy backBefore,
      kept]
    simpa [completes] using notCompleted

theorem next (legal : CompletesIssued t.state inp) : Inv (t.next inp) where
  recorded := inv.recorded_next
  holds := inv.holds_next inp
  live := inv.live_next legal
  issued := inv.issued_next
  completed := inv.completed_next legal
  deps := inv.deps_next

end Inv

theorem inv_of_reachable {t : Tracked cfg} (reach : (machine cfg).Reachable t) : Inv t :=
  reach.invariant (fun _ => Inv.init) fun _ _ _ inv legal => inv.next legal

theorem Inv.settled {t : Tracked cfg} (inv : Inv t) {inp : Input cfg} {m n : Nat}
    (now : n ∈ t.issuedNow inp) (older : m < n) {x y : Entry cfg} (hx : t.log[m]? = some x)
    (hy : t.log[n]? = some y) :
    ((x.q ≠ y.q ∧ Clash x y) ∨ (x.q = y.q ∧ x.q = .st) → m ∈ t.completed) ∧
      (x.q = y.q → m ∈ t.issued) := by
  obtain ⟨q, i, fires, rfl⟩ := Tracked.mem_issuedNow.mp now
  obtain ⟨valid, clear, unissued⟩ := issueFire_spec fires
  have hm : m < t.log.length := (List.getElem?_eq_some_iff.mp hx).1
  rcases inv.live m hm with done | ⟨p, j, live, rfl⟩
  · exact ⟨fun _ => done, fun _ => inv.completed m done⟩
  · have free : ¬HoldsBack x y (t.state.entries p j).bits.issued := by
      intro back
      have := inv.deps q i p j x y valid unissued live older hx hy back
      rw [clear p j] at this
      cases this
    constructor
    · rintro (h | ⟨same, store⟩)
      · exact absurd (.inl h) free
      · exact absurd (.inr ⟨same, .inl store⟩) free
    · intro same
      cases flag : (t.state.entries p j).bits.issued with
      | false => exact absurd (.inr ⟨same, .inr flag⟩) free
      | true => exact inv.issued p j live flag

end Gemmini.ReservationStation
