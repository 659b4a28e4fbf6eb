import Gemmini.Lib.Odometer
import Gemmini.Lib.Slots

/-!
# Work handed out piece by piece

A unit hands out the pieces of a loop one after another.  Another unit that waits for a piece sees only
whether the first one still works on the loop and how far it has come.  A piece is *settled* when the
unit has begun the loop and has finished it or passed over the piece.
-/

namespace Gemmini.Slots

variable {C S U X E : Type}

namespace Tracked

variable (L : Layout C S U) (t : Tracked C S U) (u : U)

/-- The unit works on loop `n`. -/
def WorksOn (n : ℕ) : Prop := t.state.busy u = true ∧ t.serving u = some n

/-- Stage `k` of loop `n` has been started. -/
def Begun (k : S) (n : ℕ) : Prop :=
  n < t.first ∨ (n < t.infos.length ∧ (t.slot n).started k = true)

/-- The unit has nothing more to do with the piece `x` of loop `n`. -/
def Settled (passed : X → Prop) (n : ℕ) (x : X) : Prop :=
  t.Begun (L.stage u) n ∧ (t.WorksOn u n → passed x)

end Tracked

/-- What a cycle does to the pieces of a unit, which has `passed` over some and is `at` others; a loop
with configuration `c` has the pieces `dom c`. -/
structure Walk (t : Tracked C S U) (inp : Input C S U) (u : U) (dom : C → X → Prop)
    (active : C → Prop) (passed now passed' : X → Prop) (hands : Bool) : Prop where
  fresh : inp.fire u = true → ∀ x, ¬passed' x
  moves : ∀ {n c skips x}, t.WorksOn u n → t.infos[n]? = some (c, skips) → dom c x →
    inp.fire u = false → inp.done u = false → (passed' x ↔ passed x ∨ (hands = true ∧ now x))
  ends : ∀ {n c skips x}, t.WorksOn u n → t.infos[n]? = some (c, skips) → dom c x → active c →
    inp.done u = true → passed x ∨ (hands = true ∧ now x)
  notBefore : ∀ {n c skips x}, t.WorksOn u n → t.infos[n]? = some (c, skips) → dom c x → now x →
    ¬passed x

/-- The pieces of a loop that are settled have been handed out. -/
def Covered (L : Layout C S U) (t : Tracked C S U) (u : U) (dom : C → X → Prop) (active : C → Prop)
    (passed : X → Prop) (writes : E → X → Prop) (log : List (ℕ × E)) : Prop :=
  ∀ {n c skips x}, t.infos[n]? = some (c, skips) → skips (L.stage u) = false →
    L.serves c u = true → dom c x → active c → t.Settled L u passed n x →
    ∃ e, (n, e) ∈ log ∧ writes e x

variable {L : Layout C S U} {t : Tracked C S U} {inp : Input C S U} {u : U} {n : ℕ}

theorem Inv.TakesUp.not_begun (h : Inv.TakesUp L t u n) : ¬t.Begun (L.stage u) n := by
  rintro (left | ⟨_, started⟩)
  · have := h.first_le
    omega
  · rw [h.notStarted] at started
    cases started

/-- A unit works only on loops in flight, on stages that they have begun. -/
theorem Tracked.WorksOn.in_flight (works : t.WorksOn u n) (inv : Inv L t) :
    t.first ≤ n ∧ n < t.infos.length ∧ (t.slot n).started (L.stage u) = true := by
  obtain ⟨m, c, skips, serving, first, info, _, _, started, _⟩ := inv.working u works.1
  cases works.2.symm.trans serving
  exact ⟨first, Inv.lt_of_getElem? info, started⟩

theorem Tracked.WorksOn.begun (works : t.WorksOn u n) (inv : Inv L t) :
    t.Begun (L.stage u) n :=
  .inr (works.in_flight inv).2

/-- What one unit sees of another: whether it still works on the same loop. -/
theorem Inv.away_of_worksOn (inv : Inv L t) {v : U} (works : t.WorksOn v n) :
    (t.state.loopId u != t.state.loopId v || !t.state.busy u) = true ↔ ¬t.WorksOn u n := by
  obtain ⟨first, bound, _⟩ := works.in_flight inv
  rw [(inv.served v n works.2).2]
  exact inv.away_iff first (bound.trans_le inv.le_two)

section Walk

variable {dom : C → X → Prop} {active : C → Prop} {passed now passed' : X → Prop} {hands : Bool}

theorem Walk.not_settled (walk : Walk t inp u dom active passed now passed' hands) {c : C}
    {skips : S → Bool} {x : X} (works : t.WorksOn u n) (info : t.infos[n]? = some (c, skips))
    (hx : dom c x) (here : now x) : ¬t.Settled L u passed n x :=
  fun settled => walk.notBefore works info hx here (settled.2 works)

end Walk

section Cycle

variable [Fintype S] [DecidableEq S] [Fintype U]

theorem Inv.begun_of_left (inv : Inv L t) (left : n < (t.next L inp).first) (k : S) :
    t.Begun k n := by
  rw [next_first] at left
  cases frees : t.state.frees with
  | false =>
    rw [frees] at left
    exact .inl left
  | true =>
    rw [frees, if_pos rfl] at left
    by_cases last : n = t.first
    · obtain ⟨bound, completed⟩ := inv.frees_spec frees
      subst last
      exact .inr ⟨bound, inv.completed _ _ le_rfl (by omega) (completed k)⟩
    · exact .inl (by omega)

theorem Tracked.Begun.next (inv : Inv L t) {k : S} (begun : t.Begun k n) :
    (t.next L inp).Begun k n := by
  rcases begun with left | ⟨bound, started⟩
  · refine .inl (left.trans_le ?_)
    rw [Inv.next_first]
    split <;> omega
  · by_cases leaves : n < (t.next L inp).first
    · exact .inl leaves
    · have bound' : n < (t.next L inp).infos.length :=
        bound.trans_le (List.length_append ▸ Nat.le_add_right _ _)
      have stays := inv.next_info_window (Nat.le_of_not_lt leaves) (List.getElem?_eq_getElem bound')
      exact .inr ⟨bound', (inv.next_flags stays k).1.mpr (.inl started)⟩

section

variable (inv : Inv L t) (legal : ∀ u, inp.fire u = true → t.state.mayFire L u = true)
include inv legal

/-- A stage that is begun in this cycle is taken up by its unit, unless the loop skips it. -/
theorem Inv.takesUp_of_begun {c : C} {skips : S → Bool} (info : (t.next L inp).infos[n]? = some (c, skips))
    (notSkipped : skips (L.stage u) = false) (serves : L.serves c u = true)
    (notYet : ¬t.Begun (L.stage u) n) (begun : (t.next L inp).Begun (L.stage u) n) :
    inp.fire u = true ∧ TakesUp L t u n := by
  have stillHere : ¬n < (t.next L inp).first := fun left => notYet (inv.begun_of_left left _)
  obtain ⟨_, started⟩ := begun.resolve_left stillHere
  have stays := inv.next_info_window (Nat.le_of_not_lt stillHere) info
  rcases (inv.next_flags stays _).1.mp started with
    started | starts | ⟨last, f, skips', hconfig, skipped⟩
  · by_cases old : n < t.infos.length
    · exact absurd (.inr ⟨old, started⟩) notYet
    · rw [((inv.fresh_of_late stays.first_le stays.lt_two old).2 _).1] at started
      cases started
  · obtain ⟨v, fires, same, takes⟩ := inv.starts_spec legal stays.first_le stays.lt_two starts
    obtain ⟨c', skips', info', _, serves'⟩ := takes.info
    cases (next_infos_of_getElem? info').symm.trans info
    obtain rfl := L.serves_unique serves' serves same
    exact ⟨fires, takes⟩
  · rcases next_infos_cases info with old | ⟨_, now⟩
    · exact absurd last (lt_of_getElem? old).ne
    · obtain ⟨_, _, hconfig', _⟩ := inv.configuredNow_spec now
      cases hconfig.symm.trans hconfig'
      exact absurd skipped (by simp [notSkipped])

/-- A unit that works on loop `n` after the cycle has just taken it up, or goes on with it. -/
theorem Tracked.WorksOn.next_cases (works : (t.next L inp).WorksOn u n) :
    (inp.fire u = true ∧ Inv.TakesUp L t u n) ∨
      (inp.fire u = false ∧ inp.done u = false ∧ t.WorksOn u n) := by
  obtain ⟨busy, serving⟩ := works
  change (inp.fire u || (t.state.busy u && !inp.done u)) = true at busy
  change (if inp.fire u then some (t.numberOf (t.state.requesting (L.stage u))) else t.serving u)
    = some n at serving
  cases fires : inp.fire u with
  | true =>
    obtain ⟨m, h⟩ := inv.takesUp (legal u fires)
    rw [fires, if_pos rfl, h.number] at serving
    cases serving
    exact .inl ⟨rfl, h⟩
  | false =>
    simp only [fires, Bool.false_or, Bool.and_eq_true, Bool.not_eq_true', Bool.false_eq_true,
      if_false] at busy serving
    exact .inr ⟨rfl, busy.2, busy.1, serving⟩

end

theorem Inv.TakesUp.worksOn (takes : Inv.TakesUp L t u n) (fires : inp.fire u = true) :
    (t.next L inp).WorksOn u n := by
  refine ⟨?_, ?_⟩
  · simp [Tracked.next, State.next, fires]
  · simp [Tracked.next, fires, takes.number]

variable {dom : C → X → Prop} {active : C → Prop} {passed now passed' : X → Prop} {hands : Bool}

theorem Tracked.Settled.next (inv : Inv L t)
    (legal : ∀ u, inp.fire u = true → t.state.mayFire L u = true)
    (walk : Walk t inp u dom active passed now passed' hands) {c : C} {skips : S → Bool} {x : X}
    (info : t.infos[n]? = some (c, skips)) (hx : dom c x) (settled : t.Settled L u passed n x) :
    (t.next L inp).Settled L u passed' n x := by
  refine ⟨settled.1.next inv, fun works => ?_⟩
  rcases works.next_cases inv legal with ⟨_, takes⟩ | ⟨fires, goes, works⟩
  · exact absurd settled.1 takes.not_begun
  · exact (walk.moves works info hx fires goes).mpr (.inl (settled.2 works))

theorem Covered.next {writes : E → X → Prop} {log log' : List (ℕ × E)}
    (covered : Covered L t u dom active passed writes log) (inv : Inv L t)
    (legal : ∀ u, inp.fire u = true → t.state.mayFire L u = true)
    (walk : Walk t inp u dom active passed now passed' hands) (grows : log ⊆ log')
    (logged : ∀ {n c skips x}, t.WorksOn u n → t.infos[n]? = some (c, skips) → dom c x →
      hands = true → now x → ∃ e, (n, e) ∈ log' ∧ writes e x) :
    Covered L (t.next L inp) u dom active passed' writes log' := by
  intro n c skips x info notSkipped serves hx act settled
  by_cases begun : t.Begun (L.stage u) n
  · have info : t.infos[n]? = some (c, skips) := by
      rcases Inv.next_infos_cases info with old | ⟨last, _⟩
      · exact old
      · rcases begun with left | ⟨bound, _⟩
        · have := inv.first_le
          omega
        · omega
    by_cases works : t.WorksOn u n
    · -- the unit was at it: either it had passed over the piece or it is at it now
      have reached : passed x ∨ (hands = true ∧ now x) := by
        cases ended : inp.done u with
        | true => exact walk.ends works info hx act ended
        | false =>
          have fires : inp.fire u = false := by
            by_contra fires
            obtain ⟨m, takes⟩ := inv.takesUp (legal u (by simpa using fires))
            exact absurd takes.idle (by simp [works.1])
          have stillWorks : (t.next L inp).WorksOn u n := by
            refine ⟨?_, ?_⟩
            · simp [Tracked.next, State.next, ended, works.1]
            · simp [Tracked.next, fires, works.2]
          exact (walk.moves works info hx fires ended).mp (settled.2 stillWorks)
      rcases reached with before | ⟨h, here⟩
      · obtain ⟨e, mem, he⟩ := covered info notSkipped serves hx act ⟨begun, fun _ => before⟩
        exact ⟨e, grows mem, he⟩
      · exact logged works info hx h here
    · obtain ⟨e, mem, he⟩ :=
        covered info notSkipped serves hx act ⟨begun, fun h => absurd h works⟩
      exact ⟨e, grows mem, he⟩
  · obtain ⟨fires, takes⟩ := inv.takesUp_of_begun legal info notSkipped serves begun settled.1
    exact absurd (settled.2 (takes.worksOn fires)) (walk.fresh fires x)

end Cycle

/-! ### The order of a log -/

section Order

variable {α : Type} {uses writes : α → Prop} {log : List α}

/-- Every entry that uses something comes after one that writes it. -/
def SomeBefore (uses writes : α → Prop) (log : List α) : Prop :=
  ∀ before a after, log = before ++ a :: after → uses a → ∃ b ∈ before, writes b

/-- No entry that writes something comes after one that uses it. -/
def NoneAfter (uses writes : α → Prop) (log : List α) : Prop :=
  ∀ before a after, log = before ++ a :: after → uses a → ∀ b ∈ after, ¬writes b

theorem snoc_cases {x a : α} {before after : List α} (h : log ++ [x] = before ++ a :: after) :
    (before = log ∧ a = x ∧ after = []) ∨ ∃ rest, after = rest ++ [x] ∧ log = before ++ a :: rest := by
  rcases List.eq_nil_or_concat after with rfl | ⟨rest, y, rfl⟩
  · obtain ⟨rfl, hx⟩ := List.append_inj' h rfl
    cases hx
    exact .inl ⟨rfl, rfl, rfl⟩
  · rw [List.concat_eq_append, ← List.cons_append, ← List.append_assoc] at h
    obtain ⟨rfl, hx⟩ := List.append_inj' h rfl
    cases hx
    exact .inr ⟨rest, List.concat_eq_append, rfl⟩

theorem SomeBefore.append (h : SomeBefore uses writes log) {new : Option α}
    (fresh : ∀ x, new = some x → uses x → ∃ b ∈ log, writes b) :
    SomeBefore uses writes (log ++ new.toList) := by
  cases new with
  | none => simpa using h
  | some x =>
    intro before a after split used
    rcases snoc_cases split with ⟨rfl, rfl, rfl⟩ | ⟨rest, rfl, old⟩
    · exact fresh _ rfl used
    · exact h _ _ _ old used

theorem NoneAfter.append (h : NoneAfter uses writes log) {new : Option α}
    (fresh : ∀ x, new = some x → writes x → ∀ a ∈ log, ¬uses a) :
    NoneAfter uses writes (log ++ new.toList) := by
  cases new with
  | none => simpa using h
  | some x =>
    intro before a after split used b hb
    rcases snoc_cases split with ⟨rfl, rfl, rfl⟩ | ⟨rest, rfl, old⟩
    · cases hb
    · rcases List.mem_append.mp hb with hb | new
      · exact h _ _ _ old used b hb
      · cases List.mem_singleton.mp new
        intro written
        exact fresh _ rfl written a (old ▸ List.mem_append_right _ List.mem_cons_self) used

end Order

/-! ### Units with two nested counters -/

section Counters

/-- A unit that steps a pair of counters with every command, and becomes idle when they start again. -/
structure Counts (t : Tracked C S U) (inp : Input C S U) (u : U) (w mx my : ℕ) (q q' : Odometer.Pair)
    (hands dead : Bool) : Prop where
  done : inp.done u = (dead || (hands && q.wraps w mx my))
  live : hands = true → dead = false
  fresh : inp.fire u = true → q'.x = 0 ∧ q'.y = 0
  keeps : inp.fire u = false → q' = if hands then q.next w mx my else q

variable {dom : C → ℕ × ℕ → Prop} {active : C → Prop} {w mx my : ℕ} {q q' : Odometer.Pair}
  {hands dead : Bool}

open Odometer in
theorem Counts.walk (counts : Counts t inp u w mx my q q' hands dead)
    (within : ∀ {n c skips x}, t.WorksOn u n → t.infos[n]? = some (c, skips) → dom c x →
      (mx < 2 ^ w ∧ my < 2 ^ w) ∧ q.Within (limit w mx) (limit w my) ∧ x.1 < limit w mx ∧
        x.2 < limit w my)
    (alive : ∀ {n c skips}, t.WorksOn u n → t.infos[n]? = some (c, skips) → active c →
      dead = false) :
    Walk t inp u dom active (fun x => q.Passed x.1 x.2) (fun x => q.At x.1 x.2)
      (fun x => q'.Passed x.1 x.2) hands where
  fresh fires x := by
    obtain ⟨hx, hy⟩ := counts.fresh fires
    simp [Pair.Passed, hx, hy]
  moves works info hdom fires goes := by
    obtain ⟨⟨hx, hy⟩, inside, bx, _⟩ := within works info hdom
    rw [counts.done, Bool.or_eq_false_iff] at goes
    rw [counts.keeps fires]
    cases hands with
    | false => simp
    | true =>
      rw [Bool.true_and] at goes
      simpa using (inside.next hx hy goes.2).2 _ bx _
  ends works info hdom act ended := by
    obtain ⟨⟨hx, hy⟩, inside, bx, by'⟩ := within works info hdom
    rw [counts.done, alive works info act, Bool.false_or, Bool.and_eq_true] at ended
    exact (inside.last hx hy ended.2 bx by').imp_right fun here => ⟨ended.1, here⟩
  notBefore _ _ _ here := Pair.not_passed_of_at here

open Odometer in
theorem Counts.within (counts : Counts t inp u w mx my q q' hands dead) (hx : mx < 2 ^ w)
    (hy : my < 2 ^ w) (fires : inp.fire u = false) (goes : inp.done u = false)
    (inside : q.Within (limit w mx) (limit w my)) : q'.Within (limit w mx) (limit w my) := by
  rw [counts.done, Bool.or_eq_false_iff] at goes
  rw [counts.keeps fires]
  cases hands with
  | false => exact inside
  | true => exact (inside.next hx hy (by simpa using goes.2)).1

end Counters

end Gemmini.Slots
