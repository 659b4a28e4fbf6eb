import Gemmini.Execute.Configured
import Gemmini.Mesh.Requests

/-!
# The command queue of the execute controller

`MultiHeadedQueue.scala`: a ring of registers that shows its first entries all at once and drops as many
of them in a cycle as its user asks for.
-/

namespace Gemmini

open Mesh (TagQueue wrappingAdd wrappingAdd_eq)

namespace MultiHeadedQueue

variable {α : Type} (n : ℕ) (q : TagQueue α) (enq : Option α) (pop : ℕ)

/-- `deq.bits` of a head. -/
def bits (head : ℕ) : α := q.regs (wrappingAdd q.raddr head n)

/-- `deq.valid` of a head. -/
def valid (head : ℕ) : Bool := q.len > head

def enqFire : Option α := if q.len < n then enq else none

/-- One cycle of a queue with `n` entries; the registers are those of a `TagQueue`. -/
def next : TagQueue α :=
  let fire := enqFire n q enq
  { regs := fire.elim q.regs (Function.update q.regs q.waddr)
    raddr := if pop > 0 then wrappingAdd q.raddr pop n else q.raddr
    waddr := if fire.isSome then wrappingAdd q.waddr 1 n else q.waddr
    len := if pop > 0 then q.len - pop + fire.isSome.toNat else q.len + fire.isSome.toNat }

def drop : TagQueue α := ⟨q.regs, if pop > 0 then wrappingAdd q.raddr pop n else q.raddr, q.waddr, q.len - pop⟩

variable {n q enq pop}

theorem length_contents : (q.contents n).length = q.len := Ring.length_contents ..

theorem next_eq (le : pop ≤ q.len) : next n q enq pop = drop n ((enqFire n q enq).elim q (q.push n)) pop := by
  cases fire : enqFire n q enq <;> rcases Nat.eq_zero_or_pos pop with rfl | pos <;>
    simp [next, drop, TagQueue.push, *]
  omega

theorem drop_spec (wf : q.Wf n) (le : pop ≤ q.len) (lt : pop < n) :
    (drop n q pop).Wf n ∧ (drop n q pop).contents n = (q.contents n).drop pop := by
  have raddr : (drop n q pop).raddr = (q.raddr + pop) % n := by
    rcases Nat.eq_zero_or_pos pop with rfl | pos
    · exact (Nat.mod_eq_of_lt wf.raddr).symm
    · exact (if_pos pos).trans (wrappingAdd_eq wf.raddr lt)
  refine ⟨⟨(Nat.sub_le _ _).trans wf.len, ?_, ?_⟩, ?_⟩
  · rw [raddr]
    exact Nat.mod_lt _ (by omega)
  · rw [raddr, Nat.mod_add_mod]
    show q.waddr = (q.raddr + pop + (q.len - pop)) % n
    rw [wf.waddr, Nat.add_assoc, Nat.add_sub_cancel' le]
  · rw [TagQueue.contents, raddr]
    apply Ring.contents_drop

theorem next_spec (two : 2 ≤ n) (wf : q.Wf n) (le : pop ≤ q.len) (lt : pop < n) :
    (next n q enq pop).Wf n ∧
      (next n q enq pop).contents n = (q.contents n).drop pop ++ (enqFire n q enq).toList := by
  rw [next_eq le]
  cases fire : enqFire n q enq with
  | none => simpa using drop_spec wf le lt
  | some x =>
    have room : q.len < n := by
      by_contra full
      rw [enqFire, if_neg full] at fire
      cases fire
    obtain ⟨pushed, grown⟩ := q.push_spec two wf room x
    obtain ⟨dropped, rest⟩ := drop_spec pushed (le.trans (Nat.le_succ _)) lt
    rw [grown, List.drop_append_of_le_length (by rwa [length_contents])] at rest
    exact ⟨dropped, rest⟩

theorem bits_eq (wf : q.Wf n) {head : ℕ} (lt : head < q.len) :
    (q.contents n)[head]? = some (bits n q head) := by
  rw [bits, wrappingAdd_eq wf.raddr (lt.trans_le wf.len), TagQueue.contents, Ring.contents,
    List.getElem?_map, List.getElem?_range lt, Option.map_some]

end MultiHeadedQueue

namespace Execute

open MultiHeadedQueue

variable {E : Type} {P : Params} {r : Config} {s : State E} {q : TagQueue Issued}

/-- The controller, with the registers of its command queue beside the list of commands. -/
def withQueue (E : Type) [Zero E] (P : Params) (r : Config) :
    Machine (State E × TagQueue Issued) (Input E) where
  init t := (t.1.Init ∧ t.1.config = r) ∧ t.2.raddr = 0 ∧ t.2.waddr = 0 ∧ t.2.len = 0
  legal _ _ := True
  step t inp := (t.1.next P inp, next P.exQueueLength t.2 inp.cmd (t.1.pops P inp))

/-- The commands of the step that is fed are there. -/
def Supplied (s : State E) : Prop := s.control = .compute → s.perform.commands ≤ s.cmds.length

theorem Supplied.pops_le (h : Supplied s) (inp : Input E) :
    s.pops P inp ≤ s.cmds.length ∧ s.pops P inp ≤ 2 := by
  cases control : s.control <;> simp only [State.pops, control]
  case waitingForCmd =>
    split_ifs with config
    · exact ⟨Program.valid_of_config config, by decide⟩
    · omega
  case compute =>
    have enough := h control
    unfold Performing.commands at enough
    split_ifs at enough ⊢ <;> omega
  all_goals omega

theorem Supplied.next [Zero E] (h : Supplied s) (inp : Input E) : Supplied (s.next P inp) := by
  intro control
  change s.nextControl P inp = .compute at control
  have kept (pops : s.pops P inp = 0) : s.cmds.length ≤ (s.next P inp).cmds.length := by
    show _ ≤ (s.cmds.drop (s.pops P inp) ++ _).length
    rw [pops, List.drop_zero, List.length_append]
    exact Nat.le_add_right _ _
  cases now : s.control <;> simp only [State.nextControl, now] at control
  case waitingForCmd =>
    cases action : s.action P <;> rw [action] at control <;> cases control
    case issue k =>
      have perform : (s.next P inp).perform = k := by simp only [State.next, now, action]
      rw [perform]
      apply (not_config_of_issuable (issuable_of_action action)).1.trans (kept _)
      simp [State.pops, now, action]
  case compute =>
    have perform : (s.next P inp).perform = s.perform := by simp only [State.next, now]
    rw [perform]
    apply (h now).trans (kept _)
    simp only [State.pops, now]
    split_ifs at control with last
    exact if_neg last
  all_goals split_ifs at control

theorem enqFire_toList (held : q.contents P.exQueueLength = s.cmds) (inp : Input E) :
    (enqFire P.exQueueLength q inp.cmd).toList = s.newCmd P inp := by
  rw [State.newCmd, ← held, length_contents, enqFire]
  split_ifs <;> rfl

/-- The registers hold the commands, those of the step that is fed among them. -/
def Holds (P : Params) (t : State E × TagQueue Issued) : Prop :=
  Supplied t.1 ∧ t.2.Wf P.exQueueLength ∧ t.2.contents P.exQueueLength = t.1.cmds

theorem Holds.next [Zero E] (heads : 3 ≤ P.exQueueLength) (h : Holds P (s, q)) (inp : Input E) :
    Holds P ((withQueue E P r).step (s, q) inp) := by
  obtain ⟨supplied, wf, held⟩ := h
  obtain ⟨le, small⟩ := supplied.pops_le inp (P := P)
  rw [← held, length_contents] at le
  obtain ⟨wf', held'⟩ := next_spec (by omega) wf le (by omega)
  refine ⟨supplied.next inp, wf', held'.trans ?_⟩
  rw [held, enqFire_toList held]
  rfl

/-- In every run the registers hold the list of commands: a valid head shows its command, a command is
taken just when the model takes it, and what the queue asserts of `pop` is never violated. -/
theorem command_queue_refined [Zero E] (heads : 3 ≤ P.exQueueLength)
    (reach : (withQueue E P r).Reachable (s, q)) :
    q.contents P.exQueueLength = s.cmds ∧
      (∀ head, valid q head = s.headValid head ∧
        (s.headValid head = true → bits P.exQueueLength q head = s.head head)) ∧
      ∀ inp : Input E, s.pops P inp ≤ q.len ∧ s.pops P inp ≤ 2 ∧
        (enqFire P.exQueueLength q inp.cmd).toList = s.newCmd P inp := by
  obtain ⟨supplied, wf, held⟩ : Holds P (s, q) := by
    apply reach.invariant (P := Holds P)
    · rintro ⟨s, q⟩ ⟨⟨init, -⟩, raddr, waddr, len⟩
      refine ⟨fun busy => ?_, ⟨?_, ?_, ?_⟩, ?_⟩
      · cases init.control.symm.trans busy
      · exact len.le.trans (Nat.zero_le _)
      · exact raddr.trans_lt (by omega)
      · rw [waddr, raddr, len, Nat.zero_mod]
      · rw [TagQueue.contents, len, init.cmds, Ring.contents_zero]
    · exact fun _ inp _ h _ => h.next heads inp
  have length : q.len = s.cmds.length := by rw [← held, length_contents]
  refine ⟨held, fun head => ⟨?_, fun there => ?_⟩, fun inp => ?_⟩
  · rw [valid, length]
    rfl
  · have shown := bits_eq wf (length ▸ of_decide_eq_true there)
    rw [held] at shown
    rw [State.head, List.getD_eq_getElem?_getD, shown, Option.getD_some]
  · obtain ⟨le, small⟩ := supplied.pops_le inp (P := P)
    exact ⟨length ▸ le, small, enqFire_toList held inp⟩

def twoPreloads : State ℕ × TagQueue Issued :=
  (withQueue ℕ fourExecute wsConfig).run (.reset ℕ fourExecute wsConfig, ⟨fun _ => command .config 0 0, 0, 0, 0⟩)
    (.replicate 2 (cycle (some (command .preload noBlock noBlock)) fun _ => false))

theorem twoPreloads_refined :
    twoPreloads.2.len = 2 ∧ twoPreloads.2.contents fourExecute.exQueueLength = twoPreloads.1.cmds := by
  refine ⟨by decide, ?_⟩
  have reach : (withQueue ℕ fourExecute wsConfig).Reachable twoPreloads := by
    refine Machine.Reachable.run (.init ?_) _ ⟨trivial, trivial, trivial⟩
    exact ⟨⟨State.reset_init (by decide), rfl⟩, rfl, rfl, rfl⟩
  exact (command_queue_refined (by decide) reach).1

end Execute

end Gemmini
