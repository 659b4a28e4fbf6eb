import Gemmini.Lib.Jobs
import Gemmini.Lib.Sweep
import Gemmini.LoopMatmul.Progress

/-!
# The commands that the units hand out for a request

Each unit of the unroller walks over the positions of its requests.  Whatever its surroundings do, the
commands for a request are those of its walk, in order, and the unit is idle again after the last of
them.
-/

namespace Gemmini.LoopMatmul

open Odometer (Pair)

theorem State.given_isSome {Req : Type} (s : State) (u : Unroller) (r : Req) :
    (s.given u r).isSome = s.reqFire u := by
  unfold State.given
  split <;> simp_all

theorem State.idle_of_reqFire {s : State} {u : Unroller} (fires : s.reqFire u = true) :
    s.slots.busy u = false := by
  simp only [State.reqFire, Bool.and_eq_true, Bool.not_eq_true'] at fires
  exact fires.1.2

structure View (p : Params) where
  Req : Type
  Pos : Type
  unroller : Unroller
  spec : Gemmini.Walker.Spec Req Pos OutCmd
  unit : State → Jobs.Unit Req Pos
  request : State → Req
  idle : ∀ s, (unit s).pos = none ↔ s.slots.busy unroller = false
  cycle : ∀ s inp, unit (s.next p inp) =
    (unit s).next spec (s.given unroller (request s)) (s.hands p inp unroller)
  output : ∀ s inp, (unit s).handed spec (s.hands p inp unroller) =
    if s.hands p inp unroller then some ((s.event unroller).cmd p) else none
  speaks : ∀ r x, (spec.emit r x).isSome = true

namespace View

variable {p : Params} (v : View p)

def machine : Machine (State × List (v.Req × List OutCmd)) Input where
  init x := x.1.Initial p ∧ x.2 = []
  legal _ _ := True
  step x inp :=
    (x.1.next p inp,
      Jobs.record x.2 (x.1.given v.unroller (v.request x.1))
        (if x.1.hands p inp v.unroller then some ((x.1.event v.unroller).cmd p) else none))

theorem kept_of_reachable {x : State × List (v.Req × List OutCmd)} (reach : v.machine.Reachable x) :
    Jobs.Kept v.spec (v.unit x.1) x.2 := by
  refine reach.invariant (P := fun x => Jobs.Kept v.spec (v.unit x.1) x.2) (fun x start => ?_)
    (fun x inp _ kept _ => ?_)
  · obtain ⟨initial, none_yet⟩ := start
    rw [none_yet]
    exact .init ((v.idle x.1).mpr (initial.idle v.unroller))
  · have legal : (x.1.given v.unroller (v.request x.1)).isSome = true → (v.unit x.1).pos = none := by
      intro given
      rw [State.given_isSome] at given
      exact (v.idle x.1).mpr (State.idle_of_reqFire given)
    have next := kept.next _ (x.1.hands p inp v.unroller) legal
    rw [← v.cycle x.1 inp, v.output x.1 inp] at next
    exact next

def Streams (r : v.Req) (es : List OutCmd) : Prop :=
  Gemmini.Walker.Total v.spec r es ∧
    ∀ x, v.machine.Reachable x → Jobs.Shows (v.unit x.1) x.2 r es

theorem streams_of_total {r : v.Req} {es : List OutCmd} (total : Gemmini.Walker.Total v.spec r es) :
    v.Streams r es :=
  ⟨total, fun _ reach => (v.kept_of_reachable reach).shows total (v.speaks r)⟩

theorem Streams.unique {v : View p} {r : v.Req} {es es' : List OutCmd} (h : v.Streams r es)
    (h' : v.Streams r es') : es = es' :=
  h.1.unique h'.1

end View

/-! ### Units with two counters -/

section PairUnits

open Gemmini.Walker (Nest)

variable {Req : Type}

def Walker.unit (w : Walker Req) (busy : Bool) : Jobs.Unit Req (ℕ × ℕ) :=
  ⟨w.req, if busy then some (w.inner, w.outer) else none⟩

theorem Walker.unit_pos (w : Walker Req) (busy : Bool) : (w.unit busy).pos = none ↔ busy = false := by
  cases busy <;> simp [Walker.unit]

theorem Walker.unit_next (N : Nest Req OutCmd) (w : Walker Req) (busy hands : Bool) (new : Option Req)
    (atWork : hands = true → busy = true) :
    (w.next new hands (N.next w.req w.inner w.outer)).unit
        (new.isSome || (busy && !(N.dead w.req || (hands && N.wraps w.req w.inner w.outer)))) =
      (w.unit busy).next N.spec new hands := by
  cases new with
  | some r => rfl
  | none =>
    cases hands with
    | false =>
      cases gone : N.dead w.req <;> simp [Walker.next, Walker.unit, Jobs.Unit.next, Nest.spec, gone]
    | true =>
      rw [atWork rfl]
      cases gone : N.dead w.req with
      | true => simp [Walker.next, Walker.unit, Jobs.Unit.next, Nest.spec, gone]
      | false =>
        cases wraps : N.wraps w.req w.inner w.outer <;>
          simp [Walker.next, Walker.unit, Jobs.Unit.next, Nest.spec, gone, wraps]

theorem Walker.unit_handed (N : Nest Req OutCmd) (w : Walker Req) {busy hands : Bool}
    (atWork : hands = true → busy = true) (alive : hands = true → N.dead w.req = false) :
    (w.unit busy).handed N.spec hands = if hands then some (N.cmd w.req w.inner w.outer) else none := by
  cases hands with
  | false => rfl
  | true => simp [Walker.unit, Jobs.Unit.handed, Nest.spec, atWork rfl, alive rfl]

end PairUnits

section Units

open Gemmini.Walker (Nest)

variable (p : Params)

def LdAReq.nest : Nest LdAReq OutCmd where
  width := 16
  dx r := r.iBlocks p
  dy r := r.kBlocks p
  mx r := r.maxI
  my r := r.maxK
  cmd r i k := r.cmd p i k
  dead r := r.dramAddr == 0

def LdBReq.nest : Nest LdBReq OutCmd where
  width := 16
  dx r := r.jBlocks p
  dy r := r.kBlocks p
  mx r := r.maxJ
  my r := r.maxK
  cmd r j k := r.cmd p k j
  dead r := r.dramAddr == 0

def LdDReq.nest : Nest LdDReq OutCmd where
  width := 16
  dx _ := 1
  dy r := r.maxBlocks p
  mx r := r.maxI
  my r := r.maxJ
  cmd r i j := r.cmd p i j
  dead r := r.dramAddr == 0

def ldA : View p where
  Req := LdAReq
  Pos := ℕ × ℕ
  unroller := .ldA
  spec := (LdAReq.nest p).spec
  unit s := s.ldA.unit (s.slots.busy .ldA)
  request s := (s.requested .ldA).ldAReq p s.isResadd
  idle s := s.ldA.unit_pos _
  cycle s inp := by
    have cycle := s.ldA.unit_next (LdAReq.nest p) (s.slots.busy .ldA) (s.hands p inp .ldA)
      (s.given .ldA ((s.requested .ldA).ldAReq p s.isResadd)) State.busy_of_hands
    rw [s.given_isSome] at cycle
    exact cycle
  output s inp := s.ldA.unit_handed (LdAReq.nest p) State.busy_of_hands fun hands => by
    have offers := State.offers_of_hands hands
    simp only [State.offers, Bool.and_eq_true, bne_iff_ne] at offers
    simpa [LdAReq.nest] using offers.2.2
  speaks _ _ := rfl

def ldB : View p where
  Req := LdBReq
  Pos := ℕ × ℕ
  unroller := .ldB
  spec := (LdBReq.nest p).spec
  unit s := s.ldB.unit (s.slots.busy .ldB)
  request s := (s.requested .ldB).ldBReq p s.isResadd
  idle s := s.ldB.unit_pos _
  cycle s inp := by
    have cycle := s.ldB.unit_next (LdBReq.nest p) (s.slots.busy .ldB) (s.hands p inp .ldB)
      (s.given .ldB ((s.requested .ldB).ldBReq p s.isResadd)) State.busy_of_hands
    rw [s.given_isSome] at cycle
    exact cycle
  output s inp := s.ldB.unit_handed (LdBReq.nest p) State.busy_of_hands fun hands => by
    have offers := State.offers_of_hands hands
    simp only [State.offers, Bool.and_eq_true, bne_iff_ne] at offers
    simpa [LdBReq.nest] using offers.2.2
  speaks _ _ := rfl

def ldD : View p where
  Req := LdDReq
  Pos := ℕ × ℕ
  unroller := .ldD
  spec := (LdDReq.nest p).spec
  unit s := s.ldD.unit (s.slots.busy .ldD)
  request s := (s.requested .ldD).ldDReq p s.ldDAddrStart
  idle s := s.ldD.unit_pos _
  cycle s inp := by
    have cycle := s.ldD.unit_next (LdDReq.nest p) (s.slots.busy .ldD) (s.hands p inp .ldD)
      (s.given .ldD ((s.requested .ldD).ldDReq p s.ldDAddrStart)) State.busy_of_hands
    rw [s.given_isSome] at cycle
    exact cycle
  output s inp := s.ldD.unit_handed (LdDReq.nest p) State.busy_of_hands fun hands => by
    have offers := State.offers_of_hands hands
    simp only [State.offers, Bool.and_eq_true, bne_iff_ne] at offers
    simpa [LdDReq.nest] using offers.2.2
  speaks _ _ := rfl

/-! ### StC -/

def StCReq.spec : Gemmini.Walker.Spec StCReq (StCPhase × StCCounters) OutCmd where
  start r := (if r.normalizes then .lnConfig else .st, ⟨0, 0, 0, 0, 0⟩)
  step r x := match x.1 with
    | .st => if (r.counters p x.2).wraps 16 r.maxI r.maxJ then none else some (.st, r.stNext p x.2)
    | .lnConfig => some (.lnSt, x.2)
    | .lnSt =>
      if r.lnNext p x.2 == ⟨0, 0, 0, 0, 0⟩ then none
      else some (if (r.lnNext p x.2).j = 0 then .lnConfig else .lnSt, r.lnNext p x.2)
  emit r x := match x.1 with
    | .st => some (r.mvoutCmd p x.2)
    | .lnConfig => some (.configNorm x.2.lnStatId)
    | .lnSt => some (r.lnMvoutCmd p x.2)
  dead r := r.dramAddr == 0

def stC : View p where
  Req := StCReq
  Pos := StCPhase × StCCounters
  unroller := .stC
  spec := StCReq.spec p
  unit s := ⟨s.stCReq, if s.slots.busy .stC then some (s.stCPhase, s.stCCounters) else none⟩
  request s := (s.requested .stC).stCReq p s.isResadd s.stCAddrStart
  idle s := by cases busy : s.slots.busy .stC <;> simp
  cycle s inp := by
    have busy : (s.next p inp).slots.busy .stC =
        (s.reqFire .stC || (s.slots.busy .stC && !s.done p inp .stC)) := rfl
    rw [busy]
    cases fires : s.reqFire .stC with
    | true => simp [State.given, Jobs.Unit.next, State.next, fires, StCReq.spec]
    | false =>
      cases hands : s.hands p inp .stC with
      | false =>
        cases gone : s.stCReq.dramAddr == 0 <;>
          simp [State.given, fires, State.done, Jobs.Unit.next, StCReq.spec, State.next, hands, gone]
      | true =>
        cases gone : s.stCReq.dramAddr == 0 with
        | true =>
          simp [State.given, fires, State.done, Jobs.Unit.next, StCReq.spec, State.next, hands, gone]
        | false =>
          -- the next position is that of the state StC is in
          have step : (StCReq.spec p).step s.stCReq (s.stCPhase, s.stCCounters) =
              if s.done p inp .stC then none else some (s.stCNext p) := by
            cases phase : s.stCPhase <;>
              simp [State.done, StCReq.spec, gone, hands, phase, State.stCNext]
          have dead : (StCReq.spec p).dead s.stCReq = false := gone
          cases ends : s.done p inp .stC <;>
            simp [State.given, fires, Jobs.Unit.next, State.next, hands, State.busy_of_hands hands, dead, step,
              ends]
  output s inp := by
    cases hands : s.hands p inp .stC with
    | false => rfl
    | true =>
      have offers := State.offers_of_hands hands
      simp only [State.offers, Bool.and_eq_true, bne_iff_ne] at offers
      have alive : (s.stCReq.dramAddr == 0) = false := by simpa using offers.2.2
      cases phase : s.stCPhase <;>
        simp [Jobs.Unit.handed, StCReq.spec, State.busy_of_hands hands, alive, State.event, phase,
          Event.cmd]
  speaks _ x := by
    obtain ⟨phase, c⟩ := x
    cases phase <;> rfl

end Units

end Gemmini.LoopMatmul
