import Gemmini.Normalizer.Model

/-!
# The constants of the exponentials

The accumulation lanes take the elements of a block from the request that the statistics hold, but the
constants from the input port.
-/

namespace Gemmini.Normalizer

variable {w m : ℕ} {P : Params}

def NormCmd.sumsExp : NormCmd → Bool
  | .sumExp | .invSumExp => true
  | _ => false

/-- A group of exponentials: its request, the elements, the maximum, the constants and the sum that
enters the pipeline. -/
structure ExpGroup (w m : ℕ) where
  owner : Option (Request w m)
  elems : List (BitVec w)
  max : BitVec w
  used : IExpConst w
  result : Option (BitVec w)

def ExpGroup.Own (e : ExpGroup w m) : Prop := ∃ r, e.owner = some r ∧ e.used = r.const

/-- The normalizer with the last request of each id and the groups of exponentials that have entered the
lanes. -/
structure Watched (w m : ℕ) where
  regs : State w m
  owner : Fin (m + 1) → Option (Request w m)
  groups : List (ExpGroup w m)

def State.expValid (P : Params) (s : State w m) : Bool :=
  s.lanesValid P && (s.stats s.lanesId).req.cmd.sumsExp

namespace Watched

variable (P) (s : Watched w m) (inp : Input w m)

def group : ExpGroup w m :=
  let st := s.regs.stats s.regs.lanesId
  { owner := s.owner s.regs.lanesId
    elems := (List.range (st.groupLen P)).map (st.group P)
    max := st.max
    used := inp.bits.const
    result := (s.regs.lanesIn P inp).map (·.result) }

def next : Watched w m where
  regs := s.regs.next P inp
  owner i := if s.regs.isInput P inp i then some inp.bits else s.owner i
  groups := if s.regs.expValid P then s.groups ++ [s.group P inp] else s.groups

end Watched

def watched (w m : ℕ) (P : Params) : Machine (Watched w m) (Input w m) where
  init s := (normalizer w m P).init s.regs ∧ (∀ i, s.owner i = none) ∧ s.groups = []
  legal s inp := (normalizer w m P).legal s.regs inp
  step := Watched.next P

def PortHolds (P : Params) (s : Watched w m) (inp : Input w m) : Prop :=
  s.regs.expValid P = true → inp.bits.const = (s.regs.stats s.regs.lanesId).req.const

def Owned (s : Watched w m) : Prop :=
  ∀ i, (s.regs.stats i).state ≠ .idle → s.owner i = some (s.regs.stats i).req

variable {s : Watched w m}

theorem Owned.next (owned : Owned s) (inp : Input w m) : Owned (s.next P inp) := by
  intro i busy
  show (if _ then _ else _) = some (s.regs.nextStats P inp i).req
  by_cases input : s.regs.isInput P inp i = true
  · simp [State.nextStats, input]
  · rw [if_neg input]
    have state : (s.regs.stats i).state ≠ .idle := by
      intro idle
      apply busy
      show s.regs.nextState P inp i = .idle
      rw [State.nextState, if_neg input, State.advance_of_idle idle]
    simp [State.nextStats, input, owned i state]

theorem owned_of_reachable (reach : (watched w m P).Reachable s) : Owned s := by
  apply reach.invariant
  · rintro s ⟨⟨reset, -, -⟩, -, -⟩ i busy
    exact absurd (reset i).1 busy
  · intro s inp _ owned _
    exact owned.next inp

theorem Watched.own_group_iff (owned : Owned s) {inp : Input w m}
    (enters : s.regs.expValid P = true) : (s.group P inp).Own ↔ PortHolds P s inp := by
  have busy : (s.regs.stats s.regs.lanesId).state ≠ .idle := by
    simp only [State.expValid, State.lanesValid, Bool.and_eq_true, decide_eq_true_eq] at enters
    rw [enters.1.1.1]
    simp
  simp [ExpGroup.Own, Watched.group, PortHolds, owned _ busy, enters]

theorem Watched.group_result {inp : Input w m} (enters : s.regs.expValid P = true) :
    (s.group P inp).result =
      some ((s.group P inp).elems.map fun d =>
        iexp (d - (s.group P inp).max) (s.group P inp).used).sum := by
  simp only [State.expValid, Bool.and_eq_true] at enters
  have term : ∀ d, laneTerm (s.regs.stats s.regs.lanesId).req.cmd
      (s.regs.stats s.regs.lanesId).mean (s.regs.stats s.regs.lanesId).max inp.bits.const d =
      iexp (d - (s.regs.stats s.regs.lanesId).max) inp.bits.const := by
    intro d
    have exp := enters.2
    cases cmd : (s.regs.stats s.regs.lanesId).req.cmd <;> simp [cmd, NormCmd.sumsExp] at exp <;> rfl
  simp only [Watched.group, State.lanesIn, enters.1, if_true, Option.map_some, term, List.map_map,
    Option.some.injEq]
  apply sum_lanes Stats.groupLen_le

/-- The groups after a cycle have their own constants just if those before it have, and the port shows
the constants. -/
theorem Watched.own_next_iff (owned : Owned s) (inp : Input w m) :
    (∀ e ∈ (s.next P inp).groups, e.Own) ↔ (∀ e ∈ s.groups, e.Own) ∧ PortHolds P s inp := by
  simp only [Watched.next]
  by_cases enters : s.regs.expValid P = true
  · rw [if_pos enters, List.forall_mem_append, ← Watched.own_group_iff owned enters]
    simp
  · rw [if_neg enters]
    simp [PortHolds, enters]

theorem Watched.own_run_iff (owned : Owned s) (is : List (Input w m))
    (legal : (watched w m P).LegalRun s is) :
    (∀ e ∈ ((watched w m P).run s is).groups, e.Own) ↔
      (∀ e ∈ s.groups, e.Own) ∧ ((watched w m P).restrict (PortHolds P)).LegalRun s is := by
  induction is generalizing s with
  | nil => exact (and_iff_left trivial).symm
  | cons inp is ih =>
    have later := ih (owned.next inp) legal.2
    have now := Watched.own_next_iff (P := P) owned inp
    constructor
    · intro all
      obtain ⟨before, rest⟩ := later.1 all
      obtain ⟨before, holds⟩ := now.1 before
      exact ⟨before, ⟨legal.1, holds⟩, rest⟩
    · rintro ⟨before, ⟨-, holds⟩, rest⟩
      exact later.2 ⟨now.2 ⟨before, holds⟩, rest⟩

/-- The sum of a group of exponentials, with the constants that the lanes used. -/
def ExpGroup.Summed (e : ExpGroup w m) : Prop :=
  e.result = some (e.elems.map fun d => iexp (d - e.max) e.used).sum

theorem Watched.summed_next {s : Watched w m} (summed : ∀ e ∈ s.groups, e.Summed) (inp : Input w m) :
    ∀ e ∈ (s.next P inp).groups, e.Summed := by
  simp only [Watched.next]
  by_cases enters : s.regs.expValid P = true
  · rw [if_pos enters, List.forall_mem_append]
    refine ⟨summed, ?_⟩
    simp only [List.mem_singleton, forall_eq]
    exact Watched.group_result enters
  · rwa [if_neg enters]

/-- In every run the groups of exponentials are summed with the constants on the port, and these are the
constants of the row's own request in every group just if the port showed them in every cycle. -/
theorem own_constants_iff {s : Watched w m} (init : (watched w m P).init s) (is : List (Input w m))
    (legal : (watched w m P).LegalRun s is) :
    (∀ e ∈ ((watched w m P).run s is).groups, e.Summed) ∧
      ((∀ e ∈ ((watched w m P).run s is).groups, e.Own) ↔
        ((watched w m P).restrict (PortHolds P)).LegalRun s is) := by
  have none : s.groups = [] := init.2.2
  have reach := (Machine.Reachable.init init).run is legal
  refine ⟨?_, ?_⟩
  · apply reach.invariant (P := fun s => ∀ e ∈ s.groups, e.Summed)
    · rintro s ⟨-, -, none⟩
      simp [none]
    · intro s inp _ summed _
      exact Watched.summed_next summed inp
  · rw [Watched.own_run_iff (owned_of_reachable (.init init)) is legal]
    simp [none]

instance (s : Watched 32 1) (inp : Input 32 1) : Decidable ((watched 32 1 fourLanes).legal s inp) :=
  inferInstanceAs (Decidable (inp.valid = true → inp.bits.len ≤ fourLanes.maxLen))

instance (s : Watched 32 1) (inp : Input 32 1) : Decidable (PortHolds fourLanes s inp) :=
  by unfold PortHolds; infer_instance

def softmaxRow (cmd : NormCmd) (x : BitVec 32) : Request 32 1 :=
  ⟨fun _ => x, ⟨1, 2, 3, 4⟩, 0, 4, ⟨0, Nat.two_pos⟩, cmd⟩

/-- The softmax of a row of two blocks up to its exponentials, with `idle` on the port while they are
processed. -/
def softmaxRun (idle : Input 32 1) : List (Input 32 1) :=
  [request (softmaxRow .max 3) true, idle, idle, request (softmaxRow .max 5) true, idle, idle,
    request (softmaxRow .sumExp 3) true, idle, idle, idle, request (softmaxRow .invSumExp 5) true, idle, idle,
    idle]

def watchedReset : Watched 32 1 := ⟨resetState, fun _ => none, []⟩

theorem watchedReset_init : (watched 32 1 fourLanes).init watchedReset :=
  ⟨resetState_init, fun _ => rfl, rfl⟩

theorem own_constants_held :
    let s := (watched 32 1 fourLanes).run watchedReset
      (softmaxRun { request (softmaxRow .invSumExp 5) true with valid := false })
    s.groups.length = 2 ∧ ∀ e ∈ s.groups, e.Own := by
  refine ⟨by decide, ?_⟩
  exact (own_constants_iff watchedReset_init _ (by decide)).2.2 (by decide)

/-- The requests are gone from the port when their elements enter the lanes. -/
theorem constants_of_the_port :
    let s := (watched 32 1 fourLanes).run watchedReset (softmaxRun (noRequest true))
    (watched 32 1 fourLanes).Reachable s ∧
      (s.groups.map (·.used)) = List.replicate 2 ⟨0, 0, 0, 0⟩ ∧
      (s.groups.map fun e => e.owner.map (·.const)) = List.replicate 2 (some ⟨1, 2, 3, 4⟩) ∧
      ¬ ∀ e ∈ s.groups, e.Own := by
  intro s
  have reach : (watched 32 1 fourLanes).Reachable s := by
    apply Machine.Reachable.run
    · exact .init watchedReset_init
    · decide
  refine ⟨reach, by decide, by decide, fun own => ?_⟩
  have held := (Watched.own_run_iff (owned_of_reachable (.init watchedReset_init)) _
    (by decide)).1 own
  exact absurd held.2 (by decide)

end Gemmini.Normalizer
