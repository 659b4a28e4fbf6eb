import Gemmini.LoopConv.Progress

/-!
# The order of the commands

A unit that another one waits for has handed out all its commands for a loop before the other's first,
and a command from outside passes only when all loops configured before it have left.
-/

namespace Gemmini.LoopConv

open Walker (Total)

def Unroller.waitsFor : Unroller → List Unroller
  | ex => [ldInput, ldWeights, ldBias]
  | st => [ex]
  | _ => []

namespace Tracked

variable {p : Params} {t : Tracked} {inp : Input} {u v : Unroller} {n : ℕ}

/-! ### The gates -/

theorem Inv.begun_of_waitsFor (inv : t.Inv p) (waits : u ∈ v.waitsFor)
    (begun : t.slots.Begun v n) : t.slots.Begun u n := by
  cases v with
  | ex => exact inv.loads n u (by revert waits; cases u <;> decide) begun
  | st =>
    cases List.mem_singleton.mp waits
    exact inv.execute n begun
  | ldBias | ldInput | ldWeights => cases waits

theorem Inv.not_works_of_gate (inv : t.Inv p) (waits : u ∈ v.waitsFor)
    (works : t.slots.WorksOn v n) (isOpen : t.regs.gate v = true) : ¬t.slots.WorksOn u n := by
  have away : t.regs.away u v = true := by
    cases v with
    | ex =>
      simp only [State.gate, Bool.and_eq_true] at isOpen
      cases u with
      | ldInput => exact isOpen.1.1
      | ldWeights => exact isOpen.1.2
      | ldBias => exact isOpen.2
      | ex | st => simp [Unroller.waitsFor] at waits
    | st =>
      cases List.mem_singleton.mp waits
      exact isOpen
    | ldBias | ldInput | ldWeights => cases waits
  refine (inv.slots.away_of_worksOn works).mp ?_
  simpa [State.away, Tracked.slots, State.slots] using away

theorem Inv.not_works_next (inv : t.Inv p) (begun : t.slots.Begun u n)
    (done : ¬t.slots.WorksOn u n) : ¬(t.next p inp).slots.WorksOn u n := by
  intro works
  rcases inv.worksOn_cases works with ⟨_, takes⟩ | ⟨_, before⟩
  · exact takes.not_begun begun
  · exact done before

/-- While a unit has commands in its pipeline, the units it waits for are done with the loop. -/
def PipesWait (t : Tracked) : Prop :=
  ∀ (u v : Unroller) (n : ℕ), u ∈ v.waitsFor → t.slots.WorksOn v n →
    Pipeline.held (t.regs.units v).pipe ≠ [] → ¬t.slots.WorksOn u n

theorem PipesWait.next (h : t.PipesWait) (inv : t.Inv p) : (t.next p inp).PipesWait := by
  intro u v n waits works held
  change Pipeline.held (t.regs.nextUnit p inp v).pipe ≠ [] at held
  rcases inv.worksOn_cases works with ⟨fires, takes⟩ | ⟨goes, works⟩
  · have idle : (t.regs.units v).idle = true := by
      simpa [Tracked.slots, State.slots] using takes.idle
    exact absurd (Walker.Unit.held_next_of_idle idle (inv.stages v) _) held
  · refine inv.not_works_next (inv.begun_of_waitsFor waits (works.begun inv.slots)) ?_
    by_cases before : Pipeline.held (t.regs.units v).pipe = []
    · -- a command has just entered, so the gate is open
      refine inv.not_works_of_gate waits works ?_
      by_contra isClosed
      have none : (t.regs.units v).offered (v.spec p) (t.regs.gate v) = none := by
        simp [Walker.Unit.offered, isClosed]
      have flow := Pipeline.conserved ((t.regs.units v).offered (v.spec p) (t.regs.gate v))
        (inv.stages v) (t.regs.outReady inp v)
      rw [before, none] at flow
      refine held ?_
      rw [State.nextUnit_of_waits goes]
      simpa [Walker.Unit.next, none] using
        (List.append_eq_nil_iff.mp (flow.symm.trans (by simp [Pipeline.enqFire]))).2
    · exact h u v n waits works before

/-! ### What goes out in a cycle -/

theorem Inv.works_of_output (inv : t.Inv p) {e : OutCmd} (out : .cmd n v e ∈ t.output inp) :
    t.slots.WorksOn v n ∧ Pipeline.held (t.regs.units v).pipe ≠ [] := by
  have listed : e ∈ handedOf (t.output inp) v n := List.mem_filterMap.mpr ⟨_, out, by simp⟩
  rw [inv.handedOf_output] at listed
  split at listed
  · rename_i serving
    constructor
    · by_contra notWorks
      rw [deqFire_of_not_worksOn notWorks serving] at listed
      cases listed
    · intro empty
      rw [Pipeline.deqFire_of_empty empty] at listed
      cases listed
  · cases listed

theorem Inv.left_of_forward (inv : t.Inv p) {id loops : ℕ} (out : .forward id loops ∈ t.output inp) :
    loops = t.infos.length ∧ t.infos.length ≤ t.first := by
  cases configured : t.regs.loopConfigured with
  | true =>
    rw [output, configured, if_pos rfl] at out
    obtain ⟨u, _, handed⟩ := List.mem_filterMap.mp out
    obtain ⟨_, _, entry⟩ := Option.bind_eq_some_iff.mp handed
    obtain ⟨_, _, entry⟩ := Option.map_eq_some_iff.mp entry
    cases entry
  | false =>
    constructor
    · rw [output, configured, if_neg Bool.false_ne_true] at out
      obtain ⟨_, _, entry⟩ := List.mem_map.mp out
      cases entry
      rfl
    · by_contra more
      have head := inv.slots.configured t.first le_rfl (Nat.lt_add_of_pos_right Nat.two_pos)
      have free : (t.slots.slot t.first).configured = false := by
        change (t.regs.loops _).configured = false
        rw [State.loopConfigured, Bool.or_eq_false_iff] at configured
        cases h : Slots.slotOf t.slots.start t.first <;> simp [configured]
      rw [free] at head
      exact of_decide_eq_false head.symm (Nat.lt_of_not_le more)

theorem handedOf_of_sublist {part whole : List Entry} (sub : part.Sublist whole)
    (none : handedOf whole u n = []) : handedOf part u n = [] :=
  List.sublist_nil.mp (none ▸ sub.filterMap _)

theorem Inv.total_of_done (inv : t.Inv p) (begun : t.slots.Begun u n)
    (done : ¬t.slots.WorksOn u n) {c : Cfg} {skips : Unroller → Bool}
    (info : (t.next p inp).infos[n]? = some (c, skips)) {a : Entry} {earlier after : List Entry}
    (out : t.output inp = earlier ++ a :: after) :
    Total (u.spec p) ((t.next p inp).reqOf p u n c) (handedOf (t.log ++ earlier) u n) := by
  have bound := begun.lt_length inv.slots
  have old := (inv.info_cases info).resolve_right fun new => bound.ne new.1
  have quiet : handedOf (t.output inp) u n = [] := by
    have same : handedOf (t.next p inp).log u n = _ := inv.handedOf_next done
    rw [log_next, handedOf_append] at same
    simpa using same
  have none : handedOf earlier u n = [] :=
    handedOf_of_sublist (out ▸ List.sublist_append_left earlier _) quiet
  rw [reqOf_next bound.le, handedOf_append, none, List.append_nil]
  exact inv.settled u n c skips old begun done

/-! ### Whole runs -/

/-- Before a command of unit `v`, the units it waits for have handed out their commands for the loop;
before a command from outside, all units have, for all loops. -/
structure Ordered (p : Params) (t : Tracked) : Prop where
  units : ∀ before after n v e, t.log = before ++ .cmd n v e :: after →
    ∀ u ∈ v.waitsFor, ∀ c skips, t.infos[n]? = some (c, skips) →
      Total (u.spec p) (t.reqOf p u n c) (handedOf before u n)
  forwards : ∀ before after id loops, t.log = before ++ .forward id loops :: after →
    ∀ n < loops, ∀ u c skips, t.infos[n]? = some (c, skips) →
      Total (u.spec p) (t.reqOf p u n c) (handedOf before u n)
  counted : ∀ id loops, .forward id loops ∈ t.log → loops ≤ t.infos.length
  bound : ∀ n v e, .cmd n v e ∈ t.log → n < t.infos.length

theorem split_append {α : Type} {old new before after : List α} {a : α}
    (split : old ++ new = before ++ a :: after) :
    (∃ rest, old = before ++ a :: rest) ∨
      ∃ earlier, before = old ++ earlier ∧ new = earlier ++ a :: after := by
  rcases List.append_eq_append_iff.mp split with ⟨earlier, rfl, rfl⟩ | ⟨rest, rfl, tail⟩
  · exact .inr ⟨earlier, rfl, rfl⟩
  · cases rest with
    | nil => exact .inr ⟨[], by simp, by simpa using tail.symm⟩
    | cons b rest =>
      cases tail
      exact .inl ⟨rest, rfl⟩

theorem Ordered.next (h : t.Ordered p) (inv : t.Inv p) (wait : t.PipesWait) :
    (t.next p inp).Ordered p := by
  have grows : t.infos.length ≤ (t.next p inp).infos.length :=
    List.length_append ▸ Nat.le_add_right _ _
  have old : ∀ {n : ℕ} {c : Cfg} {skips : Unroller → Bool}, n < t.infos.length →
      (t.next p inp).infos[n]? = some (c, skips) → t.infos[n]? = some (c, skips) :=
    fun bound info => (inv.info_cases info).resolve_right fun new => bound.ne new.1
  refine ⟨?_, ?_, ?_, ?_⟩
  · intro before after n v e split u waits c skips info
    rcases split_append split with ⟨rest, before'⟩ | ⟨earlier, rfl, out⟩
    · have bound := h.bound n v e (before' ▸ by simp)
      rw [reqOf_next bound.le]
      exact h.units _ _ n v e before' u waits c skips (old bound info)
    · obtain ⟨works, held⟩ := inv.works_of_output (out ▸ by simp : .cmd n v e ∈ t.output inp)
      exact inv.total_of_done (inv.begun_of_waitsFor waits (works.begun inv.slots))
        (wait u v n waits works held) info out
  · intro before after id loops split n lt u c skips info
    rcases split_append split with ⟨rest, before'⟩ | ⟨earlier, rfl, out⟩
    · have bound := lt.trans_le (h.counted id loops (before' ▸ by simp))
      rw [reqOf_next bound.le]
      exact h.forwards _ _ id loops before' n lt u c skips (old bound info)
    · obtain ⟨rfl, left⟩ := inv.left_of_forward (out ▸ by simp : .forward id loops ∈ t.output inp)
      have gone : n < t.first := lt.trans_le left
      exact inv.total_of_done (.inl gone)
        (fun works => (works.in_flight inv.slots).1.not_gt gone) info out
  · intro id loops mem
    rcases List.mem_append.mp mem with old | new
    · exact (h.counted id loops old).trans grows
    · exact (inv.left_of_forward new).1.le.trans grows
  · intro n v e mem
    rcases List.mem_append.mp mem with old | new
    · exact (h.bound n v e old).trans_le grows
    · exact ((inv.works_of_output new).1.in_flight inv.slots).2.1.trans_le grows

theorem ordered_of_reachable (reach : (machine p).Reachable t) : t.Ordered p := by
  have both : t.Ordered p ∧ t.PipesWait := by
    refine reach.invariant (P := fun t => t.Ordered p ∧ t.PipesWait) ?_ ?_
    · intro t init
      obtain ⟨initial, _, _, _, log⟩ := init
      refine ⟨⟨?_, ?_, ?_, ?_⟩, ?_⟩
      · simp [log]
      · simp [log]
      · simp [log]
      · simp [log]
      · intro u v n _ works _
        have idle := Inv.not_idle works
        simp [Walker.Unit.idle, initial.idle v, Pipeline.busy] at idle
    · intro t inp reach h _
      have inv := inv_of_reachable reach
      exact ⟨h.1.next inv h.2, h.2.next inv⟩
  exact both.1

theorem Inv.made (inv : t.Inv p) {e : OutCmd} (mem : .cmd n u e ∈ t.log) {c : Cfg}
    {skips : Unroller → Bool} (info : t.infos[n]? = some (c, skips)) :
    ∃ x, (u.spec p).emit (t.reqOf p u n c) x = some e := by
  have listed : e ∈ handedOf t.log u n := List.mem_filterMap.mpr ⟨_, mem, by simp⟩
  by_cases begun : t.slots.Begun u n
  · by_cases works : t.slots.WorksOn u n
    · rw [← inv.requests u n c skips works info]
      exact (inv.working u n works).made e (List.mem_append_left _ listed)
    · exact (inv.settled u n c skips info begun works).made listed
  · rw [inv.fresh u n begun] at listed
    cases listed

theorem Inv.none_after (inv : t.Inv p) {c : Cfg} {skips : Unroller → Bool}
    (info : t.infos[n]? = some (c, skips)) {before after : List Entry} {a : Entry}
    (split : t.log = before ++ a :: after)
    (total : Total (u.spec p) (t.reqOf p u n c) (handedOf before u n)) :
    handedOf after u n = [] := by
  have begins : handedOf t.log u n <+: handedOf before u n := by
    by_cases begun : t.slots.Begun u n
    · by_cases works : t.slots.WorksOn u n
      · rw [← inv.requests u n c skips works info] at total
        exact (inv.working u n works).beginning total
      · rw [(inv.settled u n c skips info begun works).unique total]
    · rw [inv.fresh u n begun]
      exact List.nil_prefix
  have short := begins.length_le
  rw [split, ← List.singleton_append, handedOf_append, handedOf_append, List.length_append,
    List.length_append] at short
  exact List.length_eq_zero_iff.mp (by omega)

end Tracked

/-- In every run: before a preload or compute of a loop all its load commands, and before a store all
its execute commands, have been handed out, and none comes later; the commands of LdBias, Execute and
St are made with the accumulator base of the loop; and before a command that is not of the unroller's
own, all commands of the loops configured before it have been handed out. -/
theorem loop_conv_ordered {p : Params} {t : Tracked} (reach : (machine p).Reachable t) :
    (∀ before after n v e, t.log = before ++ .cmd n v e :: after →
      ∀ u ∈ v.waitsFor, ∃ c skips, t.infos[n]? = some (c, skips) ∧
        Total (u.spec p) (t.reqOf p u n c) (handedOf before u n) ∧ handedOf after u n = []) ∧
    (∀ n u e, .cmd n u e ∈ t.log → u.hasBase = true → ∃ c skips x, t.infos[n]? = some (c, skips) ∧
      (u.spec p).emit ⟨c, t.accBase p n, Slots.slotOf false n⟩ x = some e) ∧
    (∀ before after id loops, t.log = before ++ .forward id loops :: after →
      loops ≤ t.infos.length ∧ ∀ n < loops, ∀ u, ∃ c skips, t.infos[n]? = some (c, skips) ∧
        Total (u.spec p) (t.reqOf p u n c) (handedOf before u n) ∧ handedOf after u n = []) := by
  have inv := Tracked.inv_of_reachable reach
  have ordered := Tracked.ordered_of_reachable reach
  refine ⟨?_, ?_, ?_⟩
  · intro before after n v e split u waits
    have bound := ordered.bound n v e (split ▸ by simp)
    have info : t.infos[n]? = some (_, _) := List.getElem?_eq_getElem bound
    have total := ordered.units before after n v e split u waits _ _ info
    exact ⟨_, _, info, total, inv.none_after info split total⟩
  · intro n u e mem base
    have info : t.infos[n]? = some (_, _) := List.getElem?_eq_getElem (ordered.bound n u e mem)
    obtain ⟨x, made⟩ := inv.made mem info
    rw [Tracked.reqOf, base, if_pos rfl] at made
    exact ⟨_, _, x, info, made⟩
  · intro before after id loops split
    have counted := ordered.counted id loops (split ▸ by simp)
    refine ⟨counted, fun n lt u => ?_⟩
    have info : t.infos[n]? = some (_, _) := List.getElem?_eq_getElem (lt.trans_le counted)
    have total := ordered.forwards before after id loops split n lt u _ _ info
    exact ⟨_, _, info, total, inv.none_after info split total⟩

def twoTiles : Tracked :=
  (machine smallParams).run smallStart
    ((tileCmds ++ tileCmds).map (fun x => Input.flow (some (.loop x))) ++
      List.replicate 23 (.flow (some (.other 7))))

theorem two_tiles_ordered : twoTiles.log.length = 19 ∧ twoTiles.log.getLast? = some (.forward 7 2) ∧
    (∀ before after n v e, twoTiles.log = before ++ .cmd n v e :: after →
      ∀ u ∈ v.waitsFor, handedOf after u n = []) ∧
    ∀ before after, twoTiles.log = before ++ .forward 7 2 :: after →
      ∀ n < 2, ∀ u, handedOf after u n = [] := by
  have reach : (machine smallParams).Reachable twoTiles :=
    Machine.Reachable.run (M := machine smallParams) (.init smallStart_init) _ (by trivial)
  obtain ⟨units, _, forwards⟩ := loop_conv_ordered reach
  have logged : twoTiles.log.length = 19 ∧ twoTiles.log.getLast? = some (.forward 7 2) := by decide +kernel
  refine ⟨logged.1, logged.2, ?_, ?_⟩
  · intro before after n v e split u waits
    obtain ⟨_, _, _, _, none⟩ := units before after n v e split u waits
    exact none
  · intro before after split n lt u
    obtain ⟨_, _, _, _, none⟩ := (forwards before after 7 2 split).2 n lt u
    exact none

end Gemmini.LoopConv
