import Gemmini.Lib.Machine
import Mathlib.Data.List.FinRange
import Mathlib.Tactic

/-!
# Address translation of the DMA engines

The engines hand every access to `FrontendTLB`, which keeps the last translation of each client in a
register and asks a TLB otherwise.  The TLB answers as it likes.  A translation carries, for the proofs
only, whether its answer was a fault and how many flushes there had been.
-/

namespace Gemmini.Dma

/-- The two engines, which ask for `M_XRD` and `M_XWR`. -/
inductive Kind
  | reader
  | writer
  deriving DecidableEq, Repr

structure Params (n : ℕ) where
  kind : Fin n → Kind
  pgIdxBits : ℕ
  useTlbRegisterFilter : Bool
  useSharedTlb : Bool

/-- `TLBundleAWithInfo`: a TileLink message without its address, and the virtual address. -/
structure Access where
  vaddr : ℕ
  message : ℕ
  deriving DecidableEq, Repr

/-- `TLBResp`. -/
structure Resp where
  miss : Bool
  paddr : ℕ
  pfLd : Bool
  pfSt : Bool
  aeLd : Bool
  aeSt : Bool

def Resp.exception (r : Resp) : Kind → Bool
  | .reader => r.pfLd || r.aeLd
  | .writer => r.pfSt || r.aeSt

def Resp.faults (r : Resp) (k : Kind) : Bool := !r.miss && r.exception k

structure Translation where
  paddr : ℕ
  fault : Bool
  epoch : ℕ
  deriving DecidableEq, Repr

/-- The registers of one client: the queues of its engine and its part of `FrontendTLB`. -/
structure Client where
  tlbQ : Option Access
  translateQ : Option Access
  /-- `shadow_retry_a`, of the writer. -/
  shadow : Option Access
  /-- The address that the writer holds while TileLink is not ready. -/
  held : Translation
  lastValid : Bool
  lastVpn : ℕ
  last : Translation
  asked : Bool
  tlbReqValid : Bool
  tlbReq : ℕ
  hit : Bool
  hitTranslation : Translation

structure State (n : ℕ) where
  client : Fin n → Client
  /-- Of the round-robin arbiter in front of a shared TLB. -/
  lastGrant : ℕ
  interrupt : Fin n → Bool
  /-- The flushes of a TLB so far. -/
  epoch : Fin n → ℕ

structure Input (n : ℕ) where
  answer : Fin n → Resp
  /-- `flush_retry` or `flush_skip`. -/
  flush : Fin n → Bool
  /-- `tl.a.ready`. -/
  ready : Fin n → Bool
  untranslated : Fin n → Option Access
  /-- The address that an empty queue shows. -/
  idle : Fin n → ℕ

section Cycle

variable {n : ℕ} (p : Params n) (s : State n) (i : Input n)

def tlbOf (c : Fin n) : Fin n := if p.useSharedTlb then ⟨0, c.pos⟩ else c

/-- `RRArbiter`. -/
def chosen : Option (Fin n) :=
  ((List.finRange n).find? fun c => (s.client c).tlbReqValid && s.lastGrant < c.val).or
    ((List.finRange n).find? fun c => (s.client c).tlbReqValid)

def tlbReqFire (c : Fin n) : Bool :=
  (s.client c).tlbReqValid && (!p.useSharedTlb || chosen s = some c)

/-- `client.resp`: whether it is a miss, and the address. -/
def respMiss (c : Fin n) : Bool :=
  if tlbReqFire p s c then (i.answer (tlbOf p c)).miss else !(s.client c).hit

def respTranslation (c : Fin n) : Translation :=
  if tlbReqFire p s c then
    ⟨(i.answer (tlbOf p c)).paddr, (i.answer (tlbOf p c)).faults (p.kind c), s.epoch (tlbOf p c)⟩
  else (s.client c).hitTranslation

/-- `tl.a.valid`. -/
def aValid (c : Fin n) : Bool := (s.client c).translateQ.isSome && !respMiss p s i c

/-- `tl.a.bits.address`. -/
def address (c : Fin n) : Translation :=
  match p.kind c with
  | .reader => respTranslation p s i c
  | .writer => if (s.client c).asked then respTranslation p s i c else (s.client c).held

/-- `retry_a.valid`.  The reader also retries an access that TileLink does not take. -/
def retry (c : Fin n) : Bool :=
  (s.client c).translateQ.isSome &&
    match p.kind c with
    | .reader => respMiss p s i c || !i.ready c
    | .writer => respMiss p s i c

/-- `translate_q.io.enq.ready`; the reader always empties its queue. -/
def translateReady (c : Fin n) : Bool :=
  match p.kind c with
  | .reader => true
  | .writer => (s.client c).translateQ.isNone || i.ready c || respMiss p s i c

/-- `io.tlb.req.valid`. -/
def reqValid (c : Fin n) : Bool := (s.client c).tlbQ.isSome && translateReady p s i c

/-- `io.tlb.req.bits.tlb_req.vaddr`. -/
def reqVaddr (c : Fin n) : ℕ := ((s.client c).tlbQ.map Access.vaddr).getD (i.idle c)

/-- `tlb_arb.io.out`. -/
def arbOut (c : Fin n) : Option Access :=
  if retry p s i c then (s.client c).translateQ
  else match p.kind c with
    | .reader => i.untranslated c
    | .writer => (s.client c).shadow.or (i.untranslated c)

/-- `tlb_q.io.enq.ready`. -/
def tlbQReady (c : Fin n) : Bool := (s.client c).tlbQ.isNone || translateReady p s i c

def nextTlbQ (c : Fin n) : Option Access :=
  if tlbQReady p s i c then arbOut p s i c else (s.client c).tlbQ

/-- The writer diverts an access behind one that is tried again into the shadow queue. -/
def nextTranslateQ (c : Fin n) : Option Access :=
  match p.kind c with
  | .reader => (s.client c).tlbQ
  | .writer =>
    if translateReady p s i c then if retry p s i c then none else (s.client c).tlbQ
    else (s.client c).translateQ

def nextShadow (c : Fin n) : Option Access :=
  match p.kind c with
  | .reader => none
  | .writer =>
    if retry p s i c && (s.client c).shadow.isNone then (s.client c).tlbQ
    else if !retry p s i c && tlbQReady p s i c then none
    else (s.client c).shadow

/-- `l0_tlb_hit`. -/
def l0Hit (c : Fin n) : Bool :=
  (s.client c).lastValid &&
    reqVaddr s i c >>> p.pgIdxBits == (s.client c).lastVpn >>> p.pgIdxBits

/-- `l0_tlb_paddr`. -/
def l0Paddr (c : Fin n) : ℕ :=
  (s.client c).last.paddr >>> p.pgIdxBits * 2 ^ p.pgIdxBits + reqVaddr s i c % 2 ^ p.pgIdxBits

def translated (c : Fin n) : Bool := tlbReqFire p s c && !(i.answer (tlbOf p c)).miss

def nextClient (c : Fin n) : Client where
  tlbQ := nextTlbQ p s i c
  translateQ := nextTranslateQ p s i c
  shadow := nextShadow p s i c
  held := if (s.client c).asked then respTranslation p s i c else (s.client c).held
  lastValid := p.useTlbRegisterFilter && !i.flush (tlbOf p c) &&
    (translated p s i c || (s.client c).lastValid)
  lastVpn := if translated p s i c then (s.client c).tlbReq else (s.client c).lastVpn
  last := if translated p s i c then respTranslation p s i c else (s.client c).last
  asked := reqValid p s i c
  tlbReqValid := reqValid p s i c && !l0Hit p s i c
  tlbReq := reqVaddr s i c
  hit := l0Hit p s i c
  hitTranslation := { (s.client c).last with paddr := l0Paddr p s i c }

/-- An exception of any access of a TLB raises its interrupt, a flush clears it. -/
def nextInterrupt (k : Fin n) : Bool :=
  if s.interrupt k && i.flush k then false
  else s.interrupt k || (List.finRange n).any fun c =>
    tlbReqFire p s c && tlbOf p c = k && (i.answer k).exception (p.kind c)

def next : State n where
  client := nextClient p s i
  lastGrant := ((chosen s).map Fin.val).getD s.lastGrant
  interrupt := nextInterrupt p s i
  epoch k := s.epoch k + (i.flush k).toNat

end Cycle

def idleClient : Client where
  tlbQ := none
  translateQ := none
  shadow := none
  held := ⟨0, false, 0⟩
  lastValid := false
  lastVpn := 0
  last := ⟨0, false, 0⟩
  asked := false
  tlbReqValid := false
  tlbReq := 0
  hit := false
  hitTranslation := ⟨0, false, 0⟩

def initial (n : ℕ) (lastGrant : ℕ) : State n where
  client _ := idleClient
  lastGrant := lastGrant
  interrupt _ := false
  epoch _ := 0

/-- The engines and `FrontendTLB` with any TLB: a miss is not an exception. -/
def machine {n : ℕ} (p : Params n) : Machine (State n) (Input n) where
  init s := ∃ lastGrant, s = initial n lastGrant
  legal _ i := ∀ k kind, (i.answer k).miss = true → (i.answer k).exception kind = false
  step := next p

/-! ### Faults and flushes -/

section Results

variable {n : ℕ} {p : Params n} {s : State n} {i : Input n}

/-- The TLB refuses no access, and no request hits the register of its client during a flush. -/
def Calm (p : Params n) (s : State n) (i : Input n) : Prop :=
  ∀ c, ¬(tlbReqFire p s c = true ∧ (i.answer (tlbOf p c)).faults (p.kind c) = true) ∧
    ¬(i.flush (tlbOf p c) = true ∧ reqValid p s i c = true ∧ l0Hit p s i c = true)

instance (p : Params n) (s : State n) (i : Input n) : Decidable (Calm p s i) :=
  inferInstanceAs (Decidable (∀ _, _))

def served (p : Params n) (s : State n) (c : Fin n) : Bool :=
  (s.client c).asked && (s.client c).hit && !tlbReqFire p s c

/-- No TileLink request has an address from a fault, and no register serves a translation from a fault
or from before a flush. -/
def Sound (p : Params n) (s : State n) (i : Input n) : Prop :=
  ∀ c, (aValid p s i c = true → (address p s i c).fault = false) ∧
    (served p s c = true → (s.client c).hitTranslation.fault = false ∧
      (s.client c).hitTranslation.epoch = s.epoch (tlbOf p c))

/-- What a client holds comes from translations, and what it is about to serve from the last flush on. -/
structure Clean (epoch : ℕ) (x : Client) : Prop where
  last : x.last.fault = false
  hit : x.hitTranslation.fault = false
  held : x.held.fault = false
  last_epoch : x.lastValid = true → x.last.epoch = epoch
  hit_epoch : x.asked = true → x.hit = true → x.hitTranslation.epoch = epoch

section

variable (calm : Calm p s i) {c : Fin n} (clean : Clean (s.epoch (tlbOf p c)) (s.client c))
include calm clean

theorem respTranslation_fault : (respTranslation p s i c).fault = false := by
  unfold respTranslation
  split_ifs with fire
  · by_contra fault
    exact (calm c).1 ⟨fire, by simpa using fault⟩
  · exact clean.hit

theorem address_fault : (address p s i c).fault = false := by
  have resp := respTranslation_fault calm clean
  unfold address
  split
  · exact resp
  · split_ifs
    · exact resp
    · exact clean.held

theorem Clean.next : Clean ((next p s i).epoch (tlbOf p c)) ((next p s i).client c) := by
  have resp := respTranslation_fault calm clean
  have count : (Dma.next p s i).epoch (tlbOf p c) =
      s.epoch (tlbOf p c) + (i.flush (tlbOf p c)).toNat := rfl
  constructor
  · change (if translated p s i c then _ else _ : Translation).fault = false
    split_ifs
    · exact resp
    · exact clean.last
  · exact clean.last
  · change (if (s.client c).asked then _ else _ : Translation).fault = false
    split_ifs
    · exact resp
    · exact clean.held
  · intro valid
    change (p.useTlbRegisterFilter && !i.flush (tlbOf p c) &&
      (translated p s i c || (s.client c).lastValid)) = true at valid
    simp only [Bool.and_eq_true, Bool.not_eq_true', Bool.or_eq_true] at valid
    obtain ⟨⟨-, quiet⟩, source⟩ := valid
    rw [count, quiet, Bool.toNat_false, Nat.add_zero]
    change (if translated p s i c then _ else _ : Translation).epoch = _
    split_ifs with fresh
    · have fire : tlbReqFire p s c = true := by
        simp only [translated, Bool.and_eq_true] at fresh
        exact fresh.1
      rw [respTranslation, if_pos fire]
    · exact clean.last_epoch (source.resolve_left fresh)
  · intro asked hit
    have quiet : i.flush (tlbOf p c) = false := by
      by_contra flush
      exact (calm c).2 ⟨by simpa using flush, asked, hit⟩
    have valid : (s.client c).lastValid = true := by
      change l0Hit p s i c = true at hit
      simp only [l0Hit, Bool.and_eq_true] at hit
      exact hit.1
    rw [count, quiet, Bool.toNat_false, Nat.add_zero]
    exact clean.last_epoch valid

end

theorem clean_of_reachable (reach : ((machine p).restrict (Calm p)).Reachable s) (c : Fin n) :
    Clean (s.epoch (tlbOf p c)) (s.client c) := by
  revert c
  apply reach.invariant
  · rintro s ⟨lastGrant, rfl⟩ c
    exact ⟨rfl, rfl, rfl, (nomatch ·), (nomatch ·)⟩
  · intro s i _ clean legal c
    exact (clean c).next legal.2

/-- In every run in which the TLB refuses no access and no request hits the register of its client while
the TLB is flushed, no request is issued for an access that faulted, and no register serves a translation
of a fault or from before a flush. -/
theorem translations_sound (reach : ((machine p).restrict (Calm p)).Reachable s) (calm : Calm p s i) :
    Sound p s i := by
  intro c
  have clean := clean_of_reachable reach c
  refine ⟨fun _ => address_fault calm clean, fun serves => ?_⟩
  simp only [served, Bool.and_eq_true] at serves
  exact ⟨clean.hit, clean.hit_epoch serves.1.1 serves.1.2⟩

end Results

/-! ### Runs of a writer and a reader -/

def twoClients : Params 2 where
  kind := ![.writer, .reader]
  pgIdxBits := 12
  useTlbRegisterFilter := true
  useSharedTlb := true

def cycle (access : Option Access) (answer : Resp) (flush : Bool) : Input 2 where
  answer _ := answer
  flush _ := flush
  ready _ := true
  untranslated := ![none, access]
  idle _ := 0

def missing : Resp := ⟨true, 0, false, false, false, false⟩
def found : Resp := ⟨false, 0x5000, false, false, false, false⟩
def pageFault : Resp := ⟨false, 0x5000, true, false, false, false⟩

/-- The reader asks for an access, which has its answer in the third cycle, and for two more. -/
def before (answer : Resp) (flush : Bool) : State 2 :=
  (machine twoClients).run (initial 2 0)
    [cycle (some ⟨0x1000, 0⟩) missing false, cycle (some ⟨0x1040, 1⟩) missing false,
      cycle (some ⟨0x1080, 2⟩) answer false, cycle none answer flush]

theorem legal_cycle {access : Option Access} {answer : Resp} {flush : Bool}
    (h : answer = missing ∨ answer = found ∨ answer = pageFault) (s : State 2) :
    (machine twoClients).legal s (cycle access answer flush) := by
  intro k kind miss
  rcases h with rfl | rfl | rfl
  · cases kind <;> rfl
  · simp [cycle, found] at miss
  · simp [cycle, pageFault] at miss

/-- The register serves the third access after the first two have been translated. -/
theorem third_access_served : served twoClients (before found false) 1 = true ∧
    Sound twoClients (before found false) (cycle none found false) := by
  refine ⟨by decide, translations_sound ?_ (by decide)⟩
  have start : ((machine twoClients).restrict (Calm twoClients)).Reachable (initial 2 0) :=
    .init ⟨0, rfl⟩
  rw [before, ← Machine.restrict_run (Calm twoClients)]
  apply start.run
  refine ⟨⟨legal_cycle (by simp) _, by decide⟩, ⟨legal_cycle (by simp) _, by decide⟩,
    ⟨legal_cycle (by simp) _, by decide⟩, ⟨legal_cycle (by simp) _, by decide⟩, trivial⟩

/-- A page fault does not keep the request from being issued, the translation of the fault is then served
to the third access, and so is one from before a flush in the cycle of the request. -/
theorem faults_and_flushes_missed :
    (machine twoClients).LegalRun (initial 2 0)
        [cycle (some ⟨0x1000, 0⟩) missing false, cycle (some ⟨0x1040, 1⟩) missing false,
          cycle (some ⟨0x1080, 2⟩) pageFault false, cycle none pageFault false,
          cycle none found false] ∧
      (let s := (machine twoClients).run (initial 2 0)
          [cycle (some ⟨0x1000, 0⟩) missing false, cycle (some ⟨0x1040, 1⟩) missing false]
        let i := cycle (some ⟨0x1080, 2⟩) pageFault false
        aValid twoClients s i 1 = true ∧ (address twoClients s i 1).fault = true) ∧
      (served twoClients (before pageFault false) 1 = true ∧
        ((before pageFault false).client 1).hitTranslation.fault = true) ∧
      served twoClients (before found true) 1 = true ∧
        ((before found true).client 1).hitTranslation.epoch = 0 ∧
        (before found true).epoch 0 = 1 := by
  refine ⟨⟨legal_cycle (by simp) _, legal_cycle (by simp) _, legal_cycle (by simp) _,
    legal_cycle (by simp) _, legal_cycle (by simp) _, trivial⟩, ?_⟩
  decide

end Gemmini.Dma
