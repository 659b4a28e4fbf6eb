import Gemmini.Lib.Handout

/-!
# Registers that move on with every loop

A stage keeps a register that moves on with every loop of a certain kind.  Two stages that move on with
the same loops use the same value for the same loop, however far one of them is ahead.
-/

namespace Gemmini.Slots

variable {C S U B : Type} (moves : C → Bool) (step : B → B) (start : B)

/-- The value for the loop that follows the given ones. -/
def valueAfter (loops : List (C × (S → Bool))) : B :=
  loops.foldl (fun b x => if moves x.1 then step b else b) start

/-- The first loop that a stage has not begun. -/
def Tracked.Frontier (t : Tracked C S U) (k : S) (n : ℕ) : Prop :=
  (∀ m < n, t.Begun k m) ∧ ¬t.Begun k n

variable {moves step start} {L : Layout C S U} {t : Tracked C S U} {inp : Input C S U} {k : S}

theorem valueAfter_take_succ {loops : List (C × (S → Bool))} {n : ℕ} {c : C} {skips : S → Bool}
    (info : loops[n]? = some (c, skips)) :
    valueAfter moves step start (loops.take (n + 1)) =
      if moves c then step (valueAfter moves step start (loops.take n))
      else valueAfter moves step start (loops.take n) := by
  rw [List.take_add_one, info, Option.toList_some, valueAfter, List.foldl_append]
  rfl

/-- Loops that do not move the register on leave its value. -/
theorem valueAfter_take_eq {loops : List (C × (S → Bool))} {a b : ℕ} (le : a ≤ b)
    (still : ∀ m, a ≤ m → m < b → ∀ c skips, loops[m]? = some (c, skips) → moves c = false) :
    valueAfter moves step start (loops.take b) = valueAfter moves step start (loops.take a) := by
  induction b, le using Nat.le_induction with
  | base => rfl
  | succ b le ih =>
    rw [← ih fun m first last => still m first (by omega)]
    cases info : loops[b]? with
    | none => rw [List.take_add_one, info, Option.toList_none, List.append_nil]
    | some x =>
      rw [valueAfter_take_succ info, still b le (by omega) x.1 x.2 info]
      rfl

theorem Tracked.Begun.lt_length (inv : Inv L t) {n : ℕ} (begun : t.Begun k n) :
    n < t.infos.length := by
  rcases begun with left | ⟨bound, _⟩
  · exact left.trans_le inv.first_le
  · exact bound

theorem Inv.exists_frontier (inv : Inv L t) (k : S) : ∃ n, t.Frontier k n := by
  classical
  have ends : ∃ n, ¬t.Begun k n :=
    ⟨t.infos.length, fun begun => (begun.lt_length inv).false⟩
  exact ⟨Nat.find ends, fun m hm => not_not.mp (Nat.find_min ends hm), Nat.find_spec ends⟩

theorem Inv.TakesUp.frontier {u : U} {n : ℕ} (takes : Inv.TakesUp L t u n) :
    t.Frontier (L.stage u) n := by
  refine ⟨fun m hm => ?_, takes.not_begun⟩
  by_cases left : m < t.first
  · exact .inl left
  · obtain ⟨rfl, started⟩ := takes.after (by omega)
    obtain rfl : m = t.first := by omega
    have := takes.lt_length
    exact .inr ⟨by omega, started⟩

theorem Tracked.Frontier.unique {m n : ℕ} (hm : t.Frontier k m) (hn : t.Frontier k n) : m = n := by
  rcases Nat.lt_trichotomy m n with lt | eq | gt
  · exact absurd (hn.1 m lt) hm.2
  · exact eq
  · exact absurd (hm.1 n gt) hn.2

/-- Behind the frontier only skipped loops are begun. -/
theorem Tracked.Frontier.skipped (inv : Inv L t) {m n : ℕ} (frontier : t.Frontier k n) (lt : n < m)
    (begun : t.Begun k m) {c : C} {skips : S → Bool} (info : t.infos[m]? = some (c, skips)) :
    skips k = true := by
  by_contra notSkipped
  have bound := Inv.lt_of_getElem? info
  have := inv.le_two
  have first : ¬n < t.first := fun left => frontier.2 (.inl left)
  obtain rfl : n = t.first := by omega
  obtain rfl : m = t.first + 1 := by omega
  rcases begun with left | ⟨_, started⟩
  · omega
  · have started := inv.order c skips k info (by simpa using notSkipped) started
    exact frontier.2 (.inr ⟨by omega, started⟩)

variable [Fintype S] [DecidableEq S] [Fintype U]

theorem Inv.next_value (inv : Inv L t)
    (legal : ∀ u, inp.fire u = true → t.state.mayFire L u = true) {r r' : B}
    (value : ∀ n, t.Frontier k n → r = valueAfter moves step start (t.infos.take n))
    (takes : ∀ u n c skips, L.stage u = k → inp.fire u = true → TakesUp L t u n →
      t.infos[n]? = some (c, skips) → r' = if moves c then step r else r)
    (rests : (∀ u, L.stage u = k → inp.fire u = false) → r' = r)
    (skipped : ∀ (n : ℕ) (c : C) (skips : S → Bool), (t.next L inp).infos[n]? = some (c, skips) → skips k = true →
      moves c = false)
    (served : ∀ c, ∃ u, L.stage u = k ∧ L.serves c u = true) {n : ℕ}
    (frontier : (t.next L inp).Frontier k n) :
    r' = valueAfter moves step start ((t.next L inp).infos.take n) := by
  obtain ⟨a, before⟩ := inv.exists_frontier k
  have le : a ≤ n := by
    by_contra gt
    exact frontier.2 ((before.1 n (by omega)).next inv)
  -- a loop between the two frontiers is skipped or is taken up in this cycle
  have between : ∀ m, a ≤ m → m < n → ∀ c skips, (t.next L inp).infos[m]? = some (c, skips) →
      moves c = false ∨ (m = a ∧ ∃ u, L.stage u = k ∧ inp.fire u = true ∧ TakesUp L t u a) := by
    intro m first last c skips info
    cases hskip : skips k with
    | true => exact .inl (skipped m c skips info hskip)
    | false =>
      refine .inr ?_
      obtain ⟨u, rfl, serves⟩ := served c
      by_cases begun : t.Begun (L.stage u) m
      · have lt : a < m := lt_of_le_of_ne first fun same => before.2 (same ▸ begun)
        have info : t.infos[m]? = some (c, skips) :=
          (next_infos_cases info).resolve_right fun new =>
            (begun.lt_length inv).ne new.1
        have := before.skipped inv lt begun info
        simp [hskip] at this
      · obtain ⟨fires, up⟩ :=
          inv.takesUp_of_begun legal info hskip serves begun (frontier.1 m last)
        have same := up.frontier.unique before
        exact ⟨same, u, rfl, fires, same ▸ up⟩
  have prior : valueAfter moves step start ((t.next L inp).infos.take a) = r := by
    rw [value a before]
    have bound : a ≤ t.infos.length := by
      by_contra gt
      exact ((before.1 t.infos.length (by omega)).lt_length inv).false
    congr 1
    exact List.take_append_of_le_length bound
  by_cases turn : ∃ u, L.stage u = k ∧ inp.fire u = true
  · obtain ⟨u, rfl, fires⟩ := turn
    obtain ⟨m, up⟩ := inv.takesUp (legal u fires)
    obtain rfl := up.frontier.unique before
    obtain ⟨c, skips, info, notSkipped, serves⟩ := up.info
    have begun : (t.next L inp).Begun (L.stage u) m := by
      refine .inr ⟨up.lt_length.trans_le (List.length_append ▸ Nat.le_add_right _ _), ?_⟩
      exact (inv.next_flags (up.stays inv) _).1.mpr
        (.inr (.inl (decide_eq_true ⟨u, fires, rfl, up.slot⟩)))
    have lt : m < n := lt_of_le_of_ne le fun same => frontier.2 (same ▸ begun)
    have info' : (t.next L inp).infos[m]? = some (c, skips) := next_infos_of_getElem? info
    rw [takes u m c skips rfl fires up info, ← prior, ← valueAfter_take_succ info']
    refine (valueAfter_take_eq lt fun i first last c skips info => ?_).symm
    refine (between i (by omega) last c skips info).resolve_right ?_
    rintro ⟨rfl, _⟩
    omega
  · rw [rests fun u hu => Bool.eq_false_iff.mpr fun h => turn ⟨u, hu, h⟩, ← prior]
    refine (valueAfter_take_eq le fun m first last c skips info => ?_).symm
    refine (between m first last c skips info).resolve_right ?_
    rintro ⟨_, u, hu, fires, _⟩
    exact turn ⟨u, hu, fires⟩

end Gemmini.Slots
