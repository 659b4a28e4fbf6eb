import Gemmini.ReservationStation.Hazards

/-!
# The dependency bits always lead to older commands

A bit that is set names a live command allocated earlier, through every reuse of a slot.  So the
bits form no cycle, and as long as no command is under way one that waits for nothing is offered.
-/

namespace Gemmini.ReservationStation

variable {cfg : Config}

/-- Slot `a` waits for slot `b`. -/
def WaitsFor (s : State cfg) (a b : Slot cfg) : Prop :=
  (s.entries a.1 a.2).valid = true ∧ (s.entries a.1 a.2).bits.deps b.1 b.2 = true

theorem valid_of_newDep {s : State cfg} {c : Cmd} {q : Queue} {i : Fin (cfg.entries q)}
    (dep : newDep s c q i = true) : (s.entries q i).valid = true := by
  by_contra free
  rw [Bool.not_eq_true] at free
  unfold newDep at dep
  cases hq : c.q <;> cases q <;> simp [hq, free] at dep

/-- Each bit of the tables names a live command that was allocated earlier. -/
def BitsOlder (t : Tracked cfg) : Prop :=
  ∀ a b, WaitsFor t.state a b →
    (t.state.entries b.1 b.2).valid = true ∧ t.owner b.1 b.2 < t.owner a.1 a.2

theorem BitsOlder.next {t : Tracked cfg} (older : BitsOlder t) (inv : Inv t) (inp : Input cfg) :
    BitsOlder (t.next inp) := by
  rintro ⟨q, i⟩ ⟨p, j⟩ ⟨valid, dep⟩
  rw [Tracked.next_entries] at valid dep ⊢
  rw [nextEntry_deps, Bool.and_eq_true, Bool.and_eq_true, Bool.not_eq_true',
    Bool.not_eq_true'] at dep
  obtain ⟨⟨dep, notIssued⟩, notCompleted⟩ := dep
  -- the bit was there before, or it was copied from the tables in this cycle
  have before : (t.state.entries p j).valid = true ∧ t.owner p j < (t.next inp).owner q i := by
    obtain ⟨_, ⟨c, _, _, _, after, owner, _⟩ | ⟨old, _, after, owner⟩⟩ := Tracked.next_slot valid
    · rw [after] at dep
      have live := valid_of_newDep dep
      rw [owner]
      exact ⟨live, inv.owner_lt live⟩
    · rw [after] at dep
      rw [owner]
      exact older ⟨q, i⟩ ⟨p, j⟩ ⟨old, dep⟩
  obtain ⟨live, lt⟩ := before
  constructor
  · apply nextEntry_valid_of_valid live
    · simpa [completes] using notCompleted
    · intro fires
      simp only [issueClears, fires, decide_true, Bool.true_and, Bool.or_eq_false_iff] at notIssued
      exact notIssued.2
  · rwa [Tracked.next_owner_of_valid live]

theorem bitsOlder_of_reachable {t : Tracked cfg} (reach : (machine cfg).Reachable t) :
    BitsOlder t := by
  apply reach.invariant
  · rintro t ⟨reset, _⟩ a b ⟨valid, _⟩
    rw [reset.entries] at valid
    cases valid
  · intro t inp reach older _
    exact older.next (inv_of_reachable reach) inp

/-- Following the bits from any live command ends at one that waits for nothing. -/
theorem BitsOlder.exists_ready {t : Tracked cfg} (older : BitsOlder t) (n : Nat) (a : Slot cfg)
    (valid : (t.state.entries a.1 a.2).valid = true) (number : t.owner a.1 a.2 = n) :
    ∃ b : Slot cfg, (t.state.entries b.1 b.2).valid = true ∧
      (t.state.entries b.1 b.2).bits.ready = true := by
  induction n using Nat.strong_induction_on generalizing a with
  | _ n ih =>
    by_cases ready : (t.state.entries a.1 a.2).bits.ready = true
    · exact ⟨a, valid, ready⟩
    · simp only [Entry.ready, decide_eq_true_eq, not_forall, Bool.not_eq_false] at ready
      obtain ⟨p, j, dep⟩ := ready
      obtain ⟨live, lt⟩ := older a ⟨p, j⟩ ⟨valid, dep⟩
      exact ih _ (number ▸ lt) ⟨p, j⟩ live rfl

/-- In every reachable state: the bits lead to live, earlier commands and form no cycle, and if no
live command has been issued, one without dependencies is offered for issue. -/
theorem bits_lead_to_an_offer {t : Tracked cfg} (reach : (machine cfg).Reachable t) :
    BitsOlder t ∧ (∀ a, ¬Relation.TransGen (WaitsFor t.state) a a) ∧
      ((∃ q i, (t.state.entries q i).valid = true) →
        (∀ q i, (t.state.entries q i).valid = true → (t.state.entries q i).bits.issued = false) →
        ∃ q i, issueSel t.state q = some i ∧ (t.state.entries q i).valid = true ∧
          (t.state.entries q i).bits.issued = false ∧
          ∀ p j, (t.state.entries q i).bits.deps p j = false) := by
  have older := bitsOlder_of_reachable reach
  refine ⟨older, fun a cycle => ?_, fun ⟨q, i, valid⟩ quiet => ?_⟩
  · have decreases : ∀ b, Relation.TransGen (WaitsFor t.state) a b →
        t.owner b.1 b.2 < t.owner a.1 a.2 := by
      intro b path
      induction path with
      | single step => exact (older _ _ step).2
      | tail _ step ih => exact (older _ _ step).2.trans ih
    exact lt_irrefl _ (decreases a cycle)
  · obtain ⟨⟨p, j⟩, live, ready⟩ := older.exists_ready _ ⟨q, i⟩ valid rfl
    have offered : issueValid t.state p j = true := by
      simp only [issueValid, live, ready, quiet p j live, Bool.not_false, Bool.and_true]
    obtain ⟨k, sel⟩ := Option.isSome_iff_exists.mp
      (List.find?_isSome.mpr ⟨j, List.mem_finRange j, offered⟩)
    have first := List.find?_some sel
    simp only [issueValid, Bool.and_eq_true, Entry.ready, decide_eq_true_eq, Bool.not_eq_true']
      at first
    exact ⟨p, k, sel, first.1.1, first.2, first.1.2⟩

theorem wrappingLoad_offers : ∃ q i, issueSel
    ((machine smallConfig).run (resetTracked smallConfig) wrappingLoad).state q = some i := by
  obtain ⟨q, i, offered, _⟩ :=
    (bits_lead_to_an_offer (.run (.init (resetTracked_init smallConfig)) wrappingLoad (by decide))).2.2
      ⟨.ld, ⟨0, by decide⟩, by decide⟩ (by decide)
  exact ⟨q, i, offered⟩

end Gemmini.ReservationStation
