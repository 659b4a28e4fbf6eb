import Gemmini.Lib.Machine
import Gemmini.Lib.Walker

/-!
# Units that work off one request after another

The jobs of a unit are the requests that it has been given, the last one first, each with the commands
handed out for it.  However the unit is held up, a job has the first commands of the walk of its
request, and all of them once the unit is idle or has been given another request.
-/

namespace Gemmini.Jobs

open Walker (Spec Emits Total Rest)

variable {R X E : Type}

/-- What has been handed out and what is still to come make up the request. -/
structure Due (S : Spec R X E) (r : R) (pos : Option X) (handed : List E) : Prop where
  total : ∀ rest, Rest S r pos rest → Total S r (handed ++ rest)
  rest : ∀ es, Total S r es → ∃ rest, Rest S r pos rest ∧ es = handed ++ rest

namespace Due

variable {S : Spec R X E} {r : R} {x : X} {handed : List E}

theorem start (S : Spec R X E) (r : R) : Due S r (some (S.start r)) [] :=
  ⟨fun _ rest => rest, fun es total => ⟨es, total, rfl⟩⟩

theorem step (h : Due S r (some x) handed) (alive : S.dead r = false) :
    Due S r (S.step r x) (handed ++ (S.emit r x).toList) := by
  have here := Walker.rest_some_iff (S := S) (x := x) alive
  constructor
  · intro rest later
    rw [List.append_assoc]
    exact h.total _ ((here _).mpr ⟨rest, later, rfl⟩)
  · intro es total
    obtain ⟨_, now, rfl⟩ := h.rest es total
    obtain ⟨rest, later, rfl⟩ := (here _).mp now
    exact ⟨rest, later, (List.append_assoc _ _ _).symm⟩

theorem drop (h : Due S r (some x) handed) (dead : S.dead r = true) : Due S r none handed := by
  have none_left : ∀ rest, Rest S r (some x) rest ↔ Rest S r none rest := by simp [Rest, dead]
  exact ⟨fun rest later => h.total rest ((none_left rest).mpr later), fun es total => by
    obtain ⟨rest, later, eq⟩ := h.rest es total
    exact ⟨rest, (none_left rest).mp later, eq⟩⟩

theorem finished (h : Due S r none handed) : Total S r handed := by
  simpa using h.total [] rfl

end Due

/-- The registers of a unit; it has no position when it is idle. -/
structure Unit (R X : Type) where
  req : R
  pos : Option X

/-- The registers after the clock edge; `new` is a new request, and `hands` says that the command is
taken. -/
def Unit.next (S : Spec R X E) (w : Unit R X) (new : Option R) (hands : Bool) : Unit R X :=
  match new with
  | some r => ⟨r, some (S.start r)⟩
  | none =>
    ⟨w.req, if S.dead w.req then none else if hands then w.pos.bind (S.step w.req) else w.pos⟩

def Unit.handed (S : Spec R X E) (w : Unit R X) (hands : Bool) : Option E :=
  if hands && !S.dead w.req then w.pos.bind (S.emit w.req) else none

def record (jobs : List (R × List E)) (new : Option R) (handed : Option E) : List (R × List E) :=
  let jobs := match jobs with
    | [] => []
    | (r, es) :: old => (r, es ++ handed.toList) :: old
  match new with
  | some r => (r, []) :: jobs
  | none => jobs

/-- All jobs but the last are done, and the last is as far as the unit. -/
structure Kept (S : Spec R X E) (w : Unit R X) (jobs : List (R × List E)) : Prop where
  old : ∀ job ∈ jobs.tail, Total S job.1 job.2
  current : ∀ r es old, jobs = (r, es) :: old → w.req = r ∧ Due S r w.pos es
  idle : jobs = [] → w.pos = none

namespace Kept

variable {S : Spec R X E} {w : Unit R X} {jobs : List (R × List E)}

theorem init (idle : w.pos = none) : Kept S w [] :=
  ⟨by simp, by simp, fun _ => idle⟩

theorem all_total (h : Kept S w jobs) (idle : w.pos = none) : ∀ job ∈ jobs, Total S job.1 job.2 := by
  intro job mem
  cases jobs with
  | nil => simp at mem
  | cons last old =>
    rcases List.mem_cons.mp mem with rfl | earlier
    · have due := (h.current job.1 job.2 old rfl).2
      rw [idle] at due
      exact due.finished
    · exact h.old job earlier

theorem next_none (h : Kept S w jobs) (hands : Bool) :
    Kept S (w.next S none hands) (record jobs none (w.handed S hands)) := by
  cases jobs with
  | nil =>
    have idle := h.idle rfl
    refine ⟨by simp [record], by simp [record], fun _ => ?_⟩
    simp [Unit.next, idle]
  | cons job old =>
    obtain ⟨r, es⟩ := job
    obtain ⟨same, due⟩ := h.current r es old rfl
    refine ⟨h.old, ?_, by simp [record]⟩
    rintro r' es' old' eq
    obtain ⟨rfl, rfl⟩ : r = r' ∧ es ++ (w.handed S hands).toList = es' := by
      simpa [record] using (List.cons.inj eq).1
    subst same
    refine ⟨rfl, ?_⟩
    cases dead : S.dead w.req with
    | true =>
      have none_left : w.handed S hands = none := by simp [Unit.handed, dead]
      have gone : (w.next S none hands).pos = none := by simp [Unit.next, dead]
      rw [none_left, gone, Option.toList_none, List.append_nil]
      cases pos : w.pos with
      | none => exact pos ▸ due
      | some x => exact (pos ▸ due).drop dead
    | false =>
      have now : w.handed S hands = if hands then w.pos.bind (S.emit w.req) else none := by
        simp [Unit.handed, dead]
      have after : (w.next S none hands).pos = if hands then w.pos.bind (S.step w.req) else w.pos := by
        simp [Unit.next, dead]
      rw [now, after]
      cases hands with
      | false => simpa using due
      | true =>
        cases pos : w.pos with
        | none => simpa [pos] using due
        | some x => exact (pos ▸ due).step dead

theorem next (h : Kept S w jobs) (new : Option R) (hands : Bool)
    (legal : new.isSome = true → w.pos = none) :
    Kept S (w.next S new hands) (record jobs new (w.handed S hands)) := by
  cases new with
  | none => exact h.next_none hands
  | some r =>
    have idle := legal rfl
    have kept := h.next_none hands
    have still : (w.next S none hands).pos = none := by simp [Unit.next, idle]
    refine ⟨kept.all_total still, ?_, by simp [record]⟩
    rintro r' es old eq
    obtain ⟨rfl, rfl⟩ : r = r' ∧ [] = es := by simpa [record] using (List.cons.inj eq).1
    exact ⟨rfl, .start S r⟩

end Kept

/-- The jobs show the first of the commands `es` of a request, and all of them just when the unit is
done with it. -/
structure Shows (w : Unit R X) (jobs : List (R × List E)) (r : R) (es : List E) : Prop where
  beginning : ∀ handed, (r, handed) ∈ jobs → handed <+: es
  all : ∀ newer handed older, jobs = newer ++ (r, handed) :: older → newer ≠ [] ∨ w.pos = none →
    handed = es
  idle : ∀ handed older, es ≠ [] → jobs = (r, handed) :: older → handed = es → w.pos = none

/-- A walk whose positions all have commands. -/
theorem Kept.shows {S : Spec R X E} {w : Unit R X} {jobs : List (R × List E)} (h : Kept S w jobs)
    {r : R} {es : List E} (total : Total S r es) (emits : ∀ x, (S.emit r x).isSome = true) :
    Shows w jobs r es := by
  have current : ∀ handed older, jobs = (r, handed) :: older →
      ∃ rest, Rest S r w.pos rest ∧ es = handed ++ rest :=
    fun handed older eq => (h.current r handed older eq).2.rest es total
  refine ⟨?_, ?_, ?_⟩
  · intro handed mem
    cases jobs with
    | nil => simp at mem
    | cons last old =>
      rcases List.mem_cons.mp mem with rfl | earlier
      · obtain ⟨rest, -, rfl⟩ := current handed old rfl
        exact List.prefix_append _ _
      · have same : handed = es := (h.old _ earlier).unique total
        rw [same]
  · rintro newer handed older eq (later | idle)
    · refine (h.old (r, handed) ?_).unique total
      obtain ⟨first, newer, rfl⟩ := List.exists_cons_of_ne_nil later
      simp [eq]
    · exact (h.all_total idle (r, handed) (by simp [eq])).unique total
  · rintro handed older some_es eq rfl
    obtain ⟨rest, left, none_left⟩ := current handed older eq
    have nothing : rest = [] := by simpa using none_left
    subst nothing
    cases pos : w.pos with
    | none => rfl
    | some x =>
      rw [pos] at left
      have alive : S.dead r = false := by
        by_contra dead
        rw [Bool.not_eq_false] at dead
        rw [Walker.Total, if_pos dead] at total
        exact some_es total
      obtain ⟨rest', -, eq'⟩ := (Walker.rest_some_iff alive []).mp left
      have nowhere := (List.append_eq_nil_iff.mp eq'.symm).1
      obtain ⟨e, emit⟩ := Option.isSome_iff_exists.mp (emits x)
      simp [emit] at nowhere

end Gemmini.Jobs
