import Nsync.Mu.QueueInv
import Nsync.Mu.Conditions

/-!
# From program counters to the protocol

A state of the code denotes a protocol state once the place of every waiter is
known.  The lists of the code agree with the places, every program counter
satisfies the facts that its branches have established, and a step of the code
is a step of the protocol.
-/

namespace Nsync.Mu

open Nsync.Lib

variable {T σ : Type} [DecidableEq T]

/-- A waiter without its semaphore. -/
def Waiter.core (w : Waiter) : Waiter := { w with sem := 0 }

theorem State.setPc_self (s : State T σ) (t : T) (p : Pc T) : (s.setPc t p).pc t = p :=
  Function.update_self ..

/-- The protocol state that `s` denotes when the waiters are at `loc`. -/
def State.abs (s : State T σ) (loc : T → Loc T) : AState T σ where
  v := view s.word
  th := fun u => (s.pc u).abs
  loc := loc
  wtr := fun u => (s.wtr u).core
  deq := s.dequeued
  cvw := fun c => (s.cv c).word
  prot := s.prot
  sect := s.sect

/-- The list holds, once each, the waiters whose place is `k`. -/
structure Listed (loc : T → Loc T) (l : List T) (k : Loc T) : Prop where
  mem : ∀ x, x ∈ l ↔ loc x = k
  nodup : l.Nodup

namespace Listed

variable {loc loc' : T → Loc T} {l l' : List T} {k k' : Loc T} {x : T}

omit [DecidableEq T] in
theorem congr (h : Listed loc l k) (hl : ∀ x, loc' x = k ↔ loc x = k) : Listed loc' l k :=
  ⟨fun x => (h.mem x).trans (hl x).symm, h.nodup⟩

/-- Another waiter moves elsewhere. -/
theorem other (h : Listed loc l k) (hx : loc x ≠ k) (hk : k' ≠ k) :
    Listed (Function.update loc x k') l k := by
  refine h.congr fun y => ?_
  by_cases hy : y = x
  · subst hy
    simp [hx, hk]
  · simp [hy]

theorem snoc (h : Listed loc l k) (hx : loc x ≠ k) :
    Listed (Function.update loc x k) (l ++ [x]) k := by
  have hxl : x ∉ l := fun hm => hx ((h.mem x).mp hm)
  refine ⟨fun y => ?_, ?_⟩
  · by_cases hy : y = x
    · subst hy
      simp
    · simp [hy, h.mem]
  · rw [List.nodup_append]
    refine ⟨h.nodup, by simp, fun a ha b hb => ?_⟩
    rw [List.mem_singleton] at hb
    rintro rfl
    exact hxl (hb ▸ ha)

theorem cons (h : Listed loc l k) (hx : loc x ≠ k) :
    Listed (Function.update loc x k) (x :: l) k := by
  have hxl : x ∉ l := fun hm => hx ((h.mem x).mp hm)
  refine ⟨fun y => ?_, List.nodup_cons.mpr ⟨hxl, h.nodup⟩⟩
  by_cases hy : y = x
  · subst hy
    simp
  · simp [hy, h.mem]

theorem erase (h : Listed loc l k) (hk : k' ≠ k) :
    Listed (Function.update loc x k') (l.erase x) k := by
  refine ⟨fun y => ?_, h.nodup.erase x⟩
  rw [h.nodup.mem_erase_iff]
  by_cases hy : y = x
  · subst hy
    simp [hk]
  · simp [hy, h.mem]

theorem tail (h : Listed loc (x :: l) k) (hk : k' ≠ k) :
    Listed (Function.update loc x k') l k := by
  have := h.erase (x := x) hk
  rwa [List.erase_cons_head] at this

end Listed

/-- The lists of the code agree with the places of the waiters. -/
structure Lists (s : State T σ) (loc : T → Loc T) : Prop where
  muQ : Listed loc s.waiters .muQ
  priv : ∀ u, Listed loc (s.pc u).priv (.priv u)
  wake : ∀ u, Listed loc (s.pc u).wake (.wake u)
  cvQ : ∀ c, Listed loc (s.cv c).waiters (.cvQ c)
  toWake : ∀ u, Listed loc (s.pc u).toWake (.toWake u)

/-! ## What each program counter knows -/

/-- The condition of a wait is one that the client may use. -/
def MuWait.CondIn (C : WaitCondition → Prop) (l : MuWait) : Prop :=
  ∀ c, l.condition = some c → C c

def LockCont.Ok (C : WaitCondition → Prop) (m : Mode) : LockCont → Prop
  | .ret => True
  | .muWait l => l.entry = m ∧ l.lType = m ∧ l.CondIn C
  | .cvWait l => l.entry = m

def UnlockCont.Ok (C : WaitCondition → Prop) (m : Mode) (w : Waiter) : UnlockCont → Prop
  | .ret => True
  | .muWait l => l.entry = m ∧ l.lType = m ∧ l.CondIn C ∧ l.haveLock = false ∧ w.lType = m ∧
      w.cond = l.condition
  | .cvWait l => l.entry = m ∧ l.lType = m ∧ l.outcome = .ok ∧ w.lType = m ∧ w.cond = none

/-- The word allows the acquisition of mutex and spinlock after a timeout. -/
def TryFree (old : Word) : Prop :=
  (view old).wlock = false ∧ (view old).readers = 0 ∧ (view old).longWait = false ∧
    (view old).spin = false

/-- The value stored into a condition variable does not hold its spinlock. -/
def CvFree (old : Word) : Prop := old.getLsbD 0 = false

namespace Pc

/-- The tests that a thread in `nsync_mu_lock` and its variants has passed. -/
def lockOk (m : Mode) : LockPc → Prop
  | .cas old => (view old).CanAcquire m false
  | _ => True

def lockSlowOk (l : LockSlow) : LockSlowPc → Prop
  | .acquire old => (view old).CanAcquire l.lType l.clear
  | .enqueue old => ¬ (view old).CanAcquire l.lType l.clear ∧ (view old).spin = false
  | _ => True

def unlockOk (kind : UnlockKind) : UnlockPc → Prop
  | .cas old => ¬ kind.goesSlow old
  | _ => True

def unlockSlowOk : UnlockSlowPc T → Prop
  | .fast old => (view old).NoWakeup
  | .grab old => ¬ (view old).NoWakeup ∧ (view old).spin = false
  | .scanSpin _ (.cas old) => (view old).spin = false
  | _ => True

/-- The waiter is set up for the wait that `l` describes. -/
def MuArmed (l : MuWait) (w : Waiter) : Prop := w.lType = l.lType ∧ w.cond = l.condition

def muWaitOk (l : MuWait) (w : Waiter) : MuWaitPc → Prop
  | .loadWord | .evalCondition => True
  | .storeWaiting | .loadRemoveCount | .enqueue .load | .release _ => MuArmed l w
  | .enqueue (.cas old) => MuArmed l w ∧ (view old).spin = false
  | .waitLoad | .delay => l.haveLock = false → MuArmed l w
  | .sem | .recheck | .tryLoad => l.haveLock = false ∧ MuArmed l w
  | .tryAcquire old => l.haveLock = false ∧ MuArmed l w ∧ TryFree old
  | .trySetWriterWaiting old => l.haveLock = false ∧ MuArmed l w ∧ (view old).spin = false
  | .tryCheckWaiting _ | .tryCheckCount _ | .tryRemove _ _ | .tryClearWaiting _
  | .tryStoreAcquired _ | .tryStoreFailed _ => l.haveLock = false ∧ MuArmed l w

def CvArmed (l : CvWait) (w : Waiter) : Prop := w.lType = l.lType ∧ w.cond = none

def cvWaitOk (l : CvWait) (w : Waiter) : CvWaitPc → Prop
  | .storeWaiting => l.outcome = .ok
  | .loadMuWord => l.outcome = .ok ∧ w.cond = none
  | .enqueue .load => l.outcome = .ok ∧ CvArmed l w
  | .enqueue (.cas old) | .loadRemoveCount old | .storeWord old =>
      l.outcome = .ok ∧ CvArmed l w ∧ CvFree old
  | .waitLoad | .delay => CvArmed l w
  | .sem => l.outcome = .ok ∧ CvArmed l w
  | .recheck | .spin .load => l.outcome = .ok ∧ l.semOutcome ≠ .ok ∧ CvArmed l w
  | .spin (.cas old) | .checkWaiting old | .checkCount old =>
      l.outcome = .ok ∧ l.semOutcome ≠ .ok ∧ CvArmed l w ∧ CvFree old
  | .remove old _ | .clearWaiting old => l.outcome ≠ .ok ∧ CvArmed l w ∧ CvFree old
  | .releaseWord old => CvArmed l w ∧ CvFree old

def signalOk (l : Signal T) : SignalPc T → Prop
  | .loadWord | .spin .load => l.toWake = []
  | .spin (.cas old) => l.toWake = [] ∧ CvFree old
  | .removeFirst old _ _ => l.toWake = [] ∧ CvFree old
  | .loop old | .remove old _ _ | .storeWord old => CvFree old

def wakeOk : WakePc T → Prop
  | .cas old => ((view old).wlock = true ∨ (view old).readers ≠ 0) ∧ (view old).spin = false
  | _ => True

def debugOk (l : Debug) : DebugPc → Prop
  | .spin (.cas old) =>
      match l.target with
      | none => (view old).spin = false
      | some _ => CvFree old
  | _ => True

/-- What the thread at `p` knows, and what it knows of its own waiter `w`.  No
thread panics. -/
def Ok (C : WaitCondition → Prop) (w : Waiter) : Pc T → Prop
  | .client _ => True
  | .lock m try_ k p => k.Ok C m ∧ (try_ = true → k = .ret) ∧ lockOk m p
  | .lockSlow l k p => k.Ok C l.lType ∧ w.lType = l.lType ∧ w.cond = none ∧
      (l.longWait = true → l.clear = true) ∧ lockSlowOk l p
  | .unlock kind k p => k.Ok C kind.mode w ∧ unlockOk kind p
  | .unlockSlow m k p => k.Ok C m w ∧ unlockSlowOk p
  | .muWait l p => l.entry = l.lType ∧ l.CondIn C ∧ muWaitOk l w p
  | .cvWait l p => l.entry = l.lType ∧ cvWaitOk l w p
  | .signal l p => signalOk l p
  | .wakeWaiters _ p => wakeOk p
  | .debug l p => debugOk l p
  | .panicked => False

end Pc

/-! ## The wake-up scan -/

/-- The condition of `y` is known to be false in the protected state `x`. -/
def FalseAt (E : Env σ) (C : WaitCondition → Prop) (wtr : T → Waiter) (x : σ) (y : T) : Prop :=
  ∃ c, (wtr y).cond = some c ∧ (EqSound E C → c.holds E x = false)

/-- What a scan knows; `done` is the part of the current round that it has dealt
with, and `rest` is to come. -/
structure ScanInv (E : Env σ) (C : WaitCondition → Prop) (s : State T σ) (sc : Scan T)
    (done rest : List T) : Prop where
  split : sc.newWaiters = done ++ rest
  head : rest.head? = sc.p
  late : sc.testing = true → sc.late = true
  noCond : sc.late = false → ∀ y ∈ sc.waiters ++ sc.newWaiters, (s.wtr y).cond = none
  falseDone : sc.setAllFalse = true → ∀ y ∈ sc.waiters ++ done, FalseAt E C s.wtr s.prot y
  writer : sc.setWriterWaiting = true → ∃ y ∈ sc.waiters ++ done, (s.wtr y).lType = .writer
  -- no condition is met while the spinlock is kept
  untested : sc.testing = false → s.waiters = [] ∧ (sc.wakeType = some .writer ∨
    (∀ y ∈ rest, (s.wtr y).cond = none) ∨
    (sc.wakeType = none ∧ ∃ x, sc.p = some x ∧ (s.wtr x).lType = .writer ∧ (s.wtr x).cond = none))
  wake : sc.wakeType = none ↔ sc.wake = []
  allFalse : sc.wakeType = none → sc.setAllFalse = true

/-- Where in the scan a thread is. -/
def Pc.ScanPlace (wtr : T → Waiter) : Pc T → Prop
  | .unlockSlow _ _ p =>
      match p with
      | .scanRelease sc _ => sc.testing = true
      | .scanRemove sc x _ => sc.p = some x ∧ sc.wakeType ≠ some .writer ∧
          (sc.wakeType = none ∨ (wtr x).lType = .reader)
      | .scanSpin sc _ => sc.testing = true ∧ (sc.setAllFalse = true → sc.p = none)
      | _ => True
  | _ => True

/-- What thread `t` knows in state `s`. -/
structure PcOk (E : Env σ) (C : WaitCondition → Prop) (s : State T σ) (t : T) : Prop where
  ok : (s.pc t).Ok C (s.wtr t)
  target : ∀ x, (s.pc t).target = some x →
    ∃ c, (s.pc t).cvRole.addr = some c ∧ x ∈ (s.cv c).waiters
  scan : ∀ sc, (s.pc t).scan? = some sc → ∃ done rest, ScanInv E C s sc done rest
  place : (s.pc t).ScanPlace s.wtr

/-- The `same_condition` links follow the waiter lists. -/
structure RingInv (E : Env σ) (C : WaitCondition → Prop) (s : State T σ) : Prop where
  muQ : Segmented s.links (SameTruth E C s.wtr) s.waiters
  old : ∀ u, Segmented s.links (SameTruth E C s.wtr) (s.pc u).scanOld
  new : ∀ u, Segmented s.links (SameTruth E C s.wtr) (s.pc u).scanNew
  alone : ∀ x, x ∉ s.waiters → (∀ u, x ∉ (s.pc u).priv) →
    s.links.next x = x ∧ s.links.prev x = x

/-- The invariant of the code, with the places of the waiters. -/
structure Good [Fintype T] (E : Env σ) (C : WaitCondition → Prop) (s : State T σ)
    (loc : T → Loc T) : Prop where
  lists : Lists s loc
  inv : AInv E C (s.abs loc)
  pcs : ∀ u, PcOk E C s u
  rings : RingInv E C s

/-! ## What a step leaves alone -/

section

variable {E : Env σ} {C : WaitCondition → Prop} {s s' : State T σ} {loc loc' : T → Loc T} {t u : T}

/-- A step of `t` changes the condition and the mode of no other waiter. -/
theorem AStep.wtr_of_ne {a a' : AState T σ} {x : T} (hs : AStep E C t a a') (hx : x ≠ t) :
    (a'.wtr x).cond = (a.wtr x).cond ∧ (a'.wtr x).lType = (a.wtr x).lType := by
  by_cases hf : (a.loc x).Free
  · cases hs with
    | own | insert | removeSelf | cvRemove => simp [hx]
    | dequeue y | wake y | select _ y | cvWake y =>
        by_cases hxy : x = y
        · subst hxy
          simp [Waiter.setWaiting, Waiter.removed]
        · simp [hxy]
    | transfer xs => by_cases hxx : x ∈ xs <;> simp [hxx]
    | grab _ _ _ _ _ _ _ _ hp | retake _ _ _ hp | next hp => cases hp <;> exact ⟨rfl, rfl⟩
    | _ => exact ⟨rfl, rfl⟩
  · exact hs.wtr_frame hf

omit [DecidableEq T] in
theorem Pc.Ok.congr {p : Pc T} {w w' : Waiter} (h : p.Ok C w) (hc : w'.cond = w.cond)
    (hl : w'.lType = w.lType) : p.Ok C w' := by
  have hk : ∀ (m : Mode) (k : UnlockCont), k.Ok C m w → k.Ok C m w' := by
    intro m k hk
    cases k with
    | ret => trivial
    | _ => simpa only [UnlockCont.Ok, hc, hl] using hk
  cases p with
  | lockSlow l k p => simpa only [Pc.Ok, hc, hl] using h
  | unlock kind k p => exact ⟨hk _ _ h.1, h.2⟩
  | unlockSlow m k p => exact ⟨hk _ _ h.1, h.2⟩
  | muWait l p =>
      refine ⟨h.1, h.2.1, ?_⟩
      have hp := h.2.2
      rcases p with _ | _ | _ | _ | ⟨_ | _⟩ | _ | _ | _ | _ | _ | _ | _ | _ | _ | _ | _ | _ | _ | _ <;>
        first | trivial | simpa only [Pc.muWaitOk, Pc.MuArmed, hc, hl] using hp
  | cvWait l p =>
      refine ⟨h.1, ?_⟩
      have hp := h.2
      rcases p with _ | _ | ⟨_ | _⟩ | _ | _ | _ | _ | _ | ⟨_ | _⟩ | _ | _ | _ | _ | _ | _ <;>
        simpa only [Pc.cvWaitOk, Pc.CvArmed, hc, hl] using hp
  | _ => exact h

omit [DecidableEq T] in
theorem ScanInv.frame {sc : Scan T} {done rest : List T} (h : ScanInv E C s sc done rest)
    (hw : ∀ y ∈ sc.waiters ++ sc.newWaiters,
      (s'.wtr y).cond = (s.wtr y).cond ∧ (s'.wtr y).lType = (s.wtr y).lType)
    (hprot : sc.late = true → s'.prot = s.prot)
    (hq : sc.testing = false → s.waiters = [] → s'.waiters = []) :
    ScanInv E C s' sc done rest := by
  have hdone : ∀ y ∈ sc.waiters ++ done, y ∈ sc.waiters ++ sc.newWaiters := by
    intro y hy
    rw [h.split]
    simp only [List.mem_append] at hy ⊢
    tauto
  have hrest : ∀ y ∈ rest, y ∈ sc.waiters ++ sc.newWaiters := by
    intro y hy
    rw [h.split]
    simp [hy]
  refine ⟨h.split, h.head, h.late, fun hl y hy => ?_, fun hf y hy => ?_, fun hww => ?_,
    fun ht => ?_, h.wake, h.allFalse⟩
  · rw [(hw y hy).1, h.noCond hl y hy]
  · obtain ⟨c, hc, hfalse⟩ := h.falseDone hf y hy
    refine ⟨c, by rw [(hw y (hdone y hy)).1, hc], ?_⟩
    cases hl : sc.late with
    | true => rwa [hprot hl]
    | false =>
        have := h.noCond hl y (hdone y hy)
        rw [hc] at this
        cases this
  · obtain ⟨y, hy, hm⟩ := h.writer hww
    exact ⟨y, hy, by rw [(hw y (hdone y hy)).2, hm]⟩
  · obtain ⟨hempty, hcase⟩ := h.untested ht
    refine ⟨hq ht hempty, ?_⟩
    rcases hcase with hwt | hnone | ⟨hwt, x, hx, hm, hc⟩
    · exact Or.inl hwt
    · exact Or.inr (Or.inl fun y hy => by rw [(hw y (hrest y hy)).1, hnone y hy])
    · have hxr : x ∈ rest := List.mem_of_mem_head? (h.head.trans hx)
      exact Or.inr (Or.inr ⟨hwt, x, hx, by rw [(hw x (hrest x hxr)).2, hm],
        by rw [(hw x (hrest x hxr)).1, hc]⟩)

omit [DecidableEq T] in
/-- A thread that scans without testing keeps the spinlock. -/
theorem PcOk.spin_of_untested (h : PcOk E C s u) {sc : Scan T} (hsc : (s.pc u).scan? = some sc)
    (ht : sc.testing = false) : (s.pc u).spinRole = .plain := by
  have hplace := h.place
  generalize s.pc u = p at hsc hplace
  rcases p with _ | _ | _ | _ | ⟨m, k, p⟩ | _ | _ | _ | _ | _ | _ <;>
    try simp only [Pc.scan?, reduceCtorEq] at hsc
  cases p <;> simp_all [Pc.ScanPlace, Pc.spinRole]

omit [DecidableEq T] in
theorem Pc.lockRole_of_late {p : Pc T} {sc : Scan T} (hsc : p.scan? = some sc)
    (hl : sc.late = true) : p.lockRole = some .writer := by
  rcases p with _ | _ | _ | _ | ⟨m, k, p⟩ | _ | _ | _ | _ | _ | _ <;>
    try simp only [Pc.scan?, reduceCtorEq] at hsc
  cases p <;> simp_all [Pc.lockRole]

omit [DecidableEq T] in
theorem Pc.priv_of_scan {p : Pc T} {sc : Scan T} (hsc : p.scan? = some sc) :
    p.priv = sc.waiters ++ sc.newWaiters := by
  simp [Pc.priv, Pc.scanOld, Pc.scanNew, hsc]

/-- What another thread knows survives a step of `t`. -/
theorem PcOk.frame [Fintype T] (h : Good E C s loc)
    (hs : AStep E C t (s.abs loc) (s'.abs loc')) (hl' : Lists s' loc') (hut : u ≠ t)
    (hpc : s'.pc u = s.pc u) : PcOk E C s' u := by
  obtain ⟨hok, htarget, hscan, hplace⟩ := h.pcs u
  have hwne : (s'.wtr u).cond = (s.wtr u).cond ∧ (s'.wtr u).lType = (s.wtr u).lType :=
    hs.wtr_of_ne hut
  have hpriv : ∀ y ∈ (s.pc u).priv,
      (s'.wtr y).cond = (s.wtr y).cond ∧ (s'.wtr y).lType = (s.wtr y).lType := by
    intro y hy
    have hy' := ((h.lists.priv u).mem y).mp hy
    exact hs.wtr_frame (x := y) (by simp [State.abs, hy', Loc.Free])
  refine ⟨hpc ▸ hok.congr hwne.1 hwne.2, ?_, ?_, ?_⟩
  · rw [hpc]
    intro x hx
    obtain ⟨c, hc, hxc⟩ := htarget x hx
    refine ⟨c, hc, ((hl'.cvQ c).mem x).mpr ?_⟩
    refine hs.loc_cvQ h.inv.lock h.inv.place (fun htc => ?_) (((h.lists.cvQ c).mem x).mp hxc)
    exact hut ((h.inv.cv.spin c).unique u t hc htc)
  · rw [hpc]
    intro sc hsc
    obtain ⟨done, rest, hinv⟩ := hscan sc hsc
    refine ⟨done, rest, hinv.frame (fun y hy => hpriv y ?_) (fun hlate => ?_) fun ht hempty => ?_⟩
    · rwa [Pc.priv_of_scan hsc]
    · rcases hs.prot_cases with hprot | ⟨hlk, -⟩
      · exact hprot
      · exact (hut (h.inv.lock.shares.eq_of_writer hlk (Pc.lockRole_of_late hsc hlate))).elim
    · have hspin : ((s.abs loc).th u).spin ≠ .no := by
        simp [State.abs, Pc.abs, (h.pcs u).spin_of_untested hsc ht]
      rw [List.eq_nil_iff_forall_not_mem]
      intro x hx
      have hx' := (hs.loc_muQ h.inv.lock h.inv.place hut hspin).mp ((hl'.muQ.mem x).mp hx)
      rw [List.eq_nil_iff_forall_not_mem] at hempty
      exact hempty x ((h.lists.muQ.mem x).mpr hx')
  · rw [hpc]
    generalize hp : s.pc u = p at hplace
    cases p with
    | unlockSlow m k p =>
        cases p with
        | scanRemove sc x lc =>
            obtain ⟨hx, hwt, hm⟩ := hplace
            refine ⟨hx, hwt, hm.imp id fun hm => ?_⟩
            have hsc : (s.pc u).scan? = some sc := by simp [hp, Pc.scan?]
            obtain ⟨done, rest, hinv⟩ := hscan sc hsc
            have hxr : x ∈ rest := List.mem_of_mem_head? (hinv.head.trans hx)
            rw [(hpriv x (by rw [Pc.priv_of_scan hsc, hinv.split]; simp [hxr])).2, hm]
        | _ => exact hplace
    | _ => trivial

/-! ## Steps of the code as steps of the protocol -/

/-- Were `t` to become a reader, the readers would still fit in their field of
the mutex word. -/
def Fits [Fintype T] (t : T) (s : State T σ) : Prop :=
  (Finset.univ.filter fun u => u ≠ t ∧ (s.pc u).lockRole = some .reader).card + 1 < 2 ^ 24

/-- With fewer threads than the field can count, the readers always fit. -/
theorem fits_of_card [Fintype T] (hcap : Fintype.card T < 2 ^ 24) (t : T) (s : State T σ) :
    Fits t s := by
  have hsub : (Finset.univ.filter fun u => u ≠ t ∧ (s.pc u).lockRole = some .reader) ⊆
      Finset.univ.erase t := by
    intro u hu
    simpa using (Finset.mem_filter.mp hu).2.1
  have hle := Finset.card_le_card hsub
  have hpos : 0 < Fintype.card T := Fintype.card_pos_iff.mpr ⟨t⟩
  rw [Finset.card_erase_of_mem (Finset.mem_univ t), Finset.card_univ] at hle
  rw [Fits]
  omega

/-- A step of `t` leaves the mutex word alone while another thread is going to
overwrite it at the end of its debugging output. -/
def Quiet (t : T) (s s' : State T σ) : Prop :=
  ∀ u w, u ≠ t → (s.pc u).spinRole = .dbg w → s'.word = s.word

/-- The step of `t` from `s` to `s'` is a step of the protocol and keeps the
invariant. -/
def Simulates [Fintype T] (E : Env σ) (C : WaitCondition → Prop) (t : T) (s : State T σ)
    (loc : T → Loc T) (s' : State T σ) : Prop :=
  ∃ loc', AStep E C t (s.abs loc) (s'.abs loc') ∧ (Quiet t s s' → Good E C s' loc')

theorem Good.next [Fintype T] (h : Good E C s loc) (loc' : T → Loc T)
    (hs : AStep E C t (s.abs loc) (s'.abs loc')) (hpc : ∀ u, u ≠ t → s'.pc u = s.pc u)
    (hl : Lists s' loc') (hok : PcOk E C s' t) (hr : RingInv E C s') :
    Simulates E C t s loc s' := by
  refine ⟨loc', hs, fun hq => ⟨hl, ?_, fun u => ?_, hr⟩⟩
  · refine h.inv.step hs fun u w hu hw => ?_
    change view s'.word = view s.word
    rw [hq u w hu hw]
  · by_cases hu : u = t
    · subst hu
      exact hok
    · exact PcOk.frame h hs hl hu (hpc u hu)

/-- The four lists of a thread. -/
def Pc.lists (p : Pc T) : List T × List T × List T × List T :=
  (p.scanOld, p.scanNew, p.wake, p.toWake)

omit [DecidableEq T] in
theorem Pc.lists_eq {p q : Pc T} (h : p.lists = q.lists) :
    p.scanOld = q.scanOld ∧ p.scanNew = q.scanNew ∧ p.wake = q.wake ∧ p.toWake = q.toWake ∧
      p.priv = q.priv := by
  simp only [Pc.lists, Prod.mk.injEq] at h
  obtain ⟨h1, h2, h3, h4⟩ := h
  exact ⟨h1, h2, h3, h4, by rw [Pc.priv, Pc.priv, h1, h2]⟩

omit [DecidableEq T] in
theorem Lists.congr (h : Lists s loc) (hlists : ∀ u, (s'.pc u).lists = (s.pc u).lists)
    (hwait : s'.waiters = s.waiters) (hcv : ∀ c, (s'.cv c).waiters = (s.cv c).waiters)
    (hfree : ∀ x, loc' x = loc x ∨ ((loc x).Free ∧ (loc' x).Free)) : Lists s' loc' := by
  have key : ∀ x l, ¬ l.Free → (loc' x = l ↔ loc x = l) := by
    intro x l hl
    rcases hfree x with hx | ⟨hx, hx'⟩
    · rw [hx]
    · constructor
      · rintro rfl
        exact (hl hx').elim
      · rintro rfl
        exact (hl hx).elim
  refine ⟨hwait ▸ h.muQ.congr fun x => key x _ ?_, fun u => ?_, fun u => ?_, fun c => ?_,
    fun u => ?_⟩
  · simp [Loc.Free]
  · rw [(Pc.lists_eq (hlists u)).2.2.2.2]
    exact (h.priv u).congr fun x => key x _ (by simp [Loc.Free])
  · rw [(Pc.lists_eq (hlists u)).2.2.1]
    exact (h.wake u).congr fun x => key x _ (by simp [Loc.Free])
  · rw [hcv]
    exact (h.cvQ c).congr fun x => key x _ (by simp [Loc.Free])
  · rw [(Pc.lists_eq (hlists u)).2.2.2.1]
    exact (h.toWake u).congr fun x => key x _ (by simp [Loc.Free])

omit [DecidableEq T] in
theorem RingInv.congr (h : RingInv E C s) (hold : ∀ u, (s'.pc u).scanOld = (s.pc u).scanOld)
    (hnew : ∀ u, (s'.pc u).scanNew = (s.pc u).scanNew) (hwait : s'.waiters = s.waiters)
    (hlinks : s'.links = s.links)
    (hcond : ∀ x, (x ∈ s.waiters ∨ ∃ u, x ∈ (s.pc u).priv) →
      (s'.wtr x).cond = (s.wtr x).cond) : RingInv E C s' := by
  have key : ∀ l, (∀ x ∈ l, x ∈ s.waiters ∨ ∃ u, x ∈ (s.pc u).priv) →
      Segmented s.links (SameTruth E C s.wtr) l → Segmented s'.links (SameTruth E C s'.wtr) l :=
    fun l hl hseg => Segmented.keep hseg (k := []) (fun _ _ => by rw [hlinks]; exact ⟨rfl, rfl⟩)
      (by simp) fun x hx => hcond x (hl x hx)
  refine ⟨hwait ▸ key _ (fun x hx => Or.inl hx) h.muQ, fun u => ?_, fun u => ?_, fun x hx hp => ?_⟩
  · rw [hold]
    exact key _ (fun x hx => Or.inr ⟨u, by simp [Pc.priv, hx]⟩) (h.old u)
  · rw [hnew]
    exact key _ (fun x hx => Or.inr ⟨u, by simp [Pc.priv, hx]⟩) (h.new u)
  · rw [hlinks]
    refine h.alone x (hwait ▸ hx) fun u => ?_
    have := hp u
    rwa [Pc.priv, hold, hnew] at this

omit [DecidableEq T] in
/-- A step of `t` that changes the mutex queue and the lists of `t`. -/
theorem Lists.of_step (h : Lists s loc) (hne : ∀ u, u ≠ t → (s'.pc u).lists = (s.pc u).lists)
    (hcv : ∀ c, (s'.cv c).waiters = (s.cv c).waiters) (hmu : Listed loc' s'.waiters .muQ)
    (hpriv : Listed loc' (s'.pc t).priv (.priv t)) (hwake : Listed loc' (s'.pc t).wake (.wake t))
    (htw : Listed loc' (s'.pc t).toWake (.toWake t))
    (hother : ∀ x l, l ≠ .muQ → l ≠ .priv t → l ≠ .wake t → l ≠ .toWake t → ¬ l.Free →
      (loc' x = l ↔ loc x = l)) : Lists s' loc' := by
  refine ⟨hmu, fun u => ?_, fun u => ?_, fun c => ?_, fun u => ?_⟩
  · by_cases hu : u = t
    · exact hu ▸ hpriv
    · rw [(Pc.lists_eq (hne u hu)).2.2.2.2]
      exact (h.priv u).congr fun x => hother x _ (by simp) (by simpa using hu) (by simp) (by simp)
        (by simp [Loc.Free])
  · by_cases hu : u = t
    · exact hu ▸ hwake
    · rw [(Pc.lists_eq (hne u hu)).2.2.1]
      exact (h.wake u).congr fun x => hother x _ (by simp) (by simp) (by simpa using hu) (by simp)
        (by simp [Loc.Free])
  · rw [hcv]
    exact (h.cvQ c).congr fun x => hother x _ (by simp) (by simp) (by simp) (by simp)
      (by simp [Loc.Free])
  · by_cases hu : u = t
    · exact hu ▸ htw
    · rw [(Pc.lists_eq (hne u hu)).2.2.2.1]
      exact (h.toWake u).congr fun x => hother x _ (by simp) (by simp) (by simp)
        (by simpa using hu) (by simp [Loc.Free])

omit [DecidableEq T] in
/-- A step of `t` that changes the queue of `c` and the `to_wake_list` of `t`. -/
theorem Lists.of_cvStep (h : Lists s loc) (c : Addr)
    (hpriv : ∀ u, (s'.pc u).priv = (s.pc u).priv) (hwake : ∀ u, (s'.pc u).wake = (s.pc u).wake)
    (hwait : s'.waiters = s.waiters) (hcv : ∀ d, d ≠ c → (s'.cv d).waiters = (s.cv d).waiters)
    (hc : Listed loc' (s'.cv c).waiters (.cvQ c))
    (htw : ∀ u, u ≠ t → (s'.pc u).toWake = (s.pc u).toWake)
    (ht : Listed loc' (s'.pc t).toWake (.toWake t))
    (hother : ∀ x l, l ≠ .cvQ c → l ≠ .toWake t → ¬ l.Free → (loc' x = l ↔ loc x = l)) :
    Lists s' loc' := by
  refine ⟨hwait ▸ h.muQ.congr fun x => hother x _ (by simp) (by simp) (by simp [Loc.Free]),
    fun u => ?_, fun u => ?_, fun d => ?_, fun u => ?_⟩
  · rw [hpriv]
    exact (h.priv u).congr fun x => hother x _ (by simp) (by simp) (by simp [Loc.Free])
  · rw [hwake]
    exact (h.wake u).congr fun x => hother x _ (by simp) (by simp) (by simp [Loc.Free])
  · by_cases hd : d = c
    · exact hd ▸ hc
    · rw [hcv d hd]
      exact (h.cvQ d).congr fun x => hother x _ (by simpa using hd) (by simp) (by simp [Loc.Free])
  · by_cases hu : u = t
    · exact hu ▸ ht
    · rw [htw u hu]
      exact (h.toWake u).congr fun x => hother x _ (by simp) (by simpa using hu) (by simp [Loc.Free])

omit [DecidableEq T] in
/-- A step of `t` that changes the mutex queue and the lists of `t`; the links
change only in `k`. -/
theorem RingInv.of_step (h : RingInv E C s) {k : List T}
    (hne : ∀ u, u ≠ t → (s'.pc u).lists = (s.pc u).lists) (hout : Outside s.links s'.links k)
    (hk : ∀ x ∈ k, ∀ u, u ≠ t → x ∉ (s.pc u).priv)
    (hcond : ∀ x u, u ≠ t → x ∈ (s.pc u).priv → (s'.wtr x).cond = (s.wtr x).cond)
    (hmu : Segmented s'.links (SameTruth E C s'.wtr) s'.waiters)
    (hold : Segmented s'.links (SameTruth E C s'.wtr) (s'.pc t).scanOld)
    (hnew : Segmented s'.links (SameTruth E C s'.wtr) (s'.pc t).scanNew)
    (halone : ∀ x, x ∉ s'.waiters → x ∉ (s'.pc t).priv → (∀ u, u ≠ t → x ∉ (s.pc u).priv) →
      x ∈ s.waiters ∨ x ∈ (s.pc t).priv ∨ x ∈ k → s'.links.next x = x ∧ s'.links.prev x = x) :
    RingInv E C s' := by
  have key : ∀ u, u ≠ t → ∀ l : List T, (∀ x ∈ l, x ∈ (s.pc u).priv) →
      Segmented s.links (SameTruth E C s.wtr) l → Segmented s'.links (SameTruth E C s'.wtr) l :=
    fun u hu l hl hseg => Segmented.keep hseg hout (fun x hx hxk => hk x hxk u hu (hl x hx))
      fun x hx => hcond x u hu (hl x hx)
  refine ⟨hmu, fun u => ?_, fun u => ?_, fun x hx hp => ?_⟩
  · by_cases hu : u = t
    · exact hu ▸ hold
    · rw [(Pc.lists_eq (hne u hu)).1]
      exact key u hu _ (fun x hx => by simp [Pc.priv, hx]) (h.old u)
  · by_cases hu : u = t
    · exact hu ▸ hnew
    · rw [(Pc.lists_eq (hne u hu)).2.1]
      exact key u hu _ (fun x hx => by simp [Pc.priv, hx]) (h.new u)
  · have hp' : ∀ u, u ≠ t → x ∉ (s.pc u).priv :=
      fun u hu => (Pc.lists_eq (hne u hu)).2.2.2.2 ▸ hp u
    by_cases hxk : x ∈ s.waiters ∨ x ∈ (s.pc t).priv ∨ x ∈ k
    · exact halone x hx (hp t) hp' hxk
    · rw [not_or, not_or] at hxk
      obtain ⟨h1, h2⟩ := hout x hxk.2.2
      have hall : ∀ u, x ∉ (s.pc u).priv := by
        intro u
        by_cases hu : u = t
        · exact hu ▸ hxk.2.1
        · exact hp' u hu
      obtain ⟨h3, h4⟩ := h.alone x hxk.1 hall
      exact ⟨h1.trans h3, h2.trans h4⟩

omit [DecidableEq T] in
/-- A change of the mutex queue; the links change only in `k`. -/
theorem RingInv.requeue (h : RingInv E C s) (t : T) {k : List T}
    (hlists : ∀ u, (s'.pc u).lists = (s.pc u).lists) (hout : Outside s.links s'.links k)
    (hk : ∀ x ∈ k, ∀ u, x ∉ (s.pc u).priv)
    (hmu : Segmented s'.links (SameTruth E C s'.wtr) s'.waiters)
    (hcond : ∀ x u, x ∈ (s.pc u).priv → (s'.wtr x).cond = (s.wtr x).cond)
    (halone : ∀ x, x ∉ s'.waiters → (∀ u, x ∉ (s.pc u).priv) → x ∈ s.waiters ∨ x ∈ k →
      s'.links.next x = x ∧ s'.links.prev x = x) : RingInv E C s' := by
  have key : ∀ l : List T, (∀ x ∈ l, x ∈ (s.pc t).priv) →
      Segmented s.links (SameTruth E C s.wtr) l → Segmented s'.links (SameTruth E C s'.wtr) l :=
    fun l hl hseg => Segmented.keep hseg hout (fun x hx hxk => hk x hxk t (hl x hx))
      fun x hx => hcond x t (hl x hx)
  obtain ⟨h1, h2, -, -, h5⟩ := Pc.lists_eq (hlists t)
  refine h.of_step (t := t) (fun u _ => hlists u) hout (fun x hx u _ => hk x hx u)
    (fun x u _ hx => hcond x u hx) hmu ?_ ?_ fun x hx hpt hp hxk => ?_
  · rw [h1]
    exact key _ (fun x hx => by simp [Pc.priv, hx]) (h.old t)
  · rw [h2]
    exact key _ (fun x hx => by simp [Pc.priv, hx]) (h.new t)
  · rw [h5] at hpt
    refine halone x hx (fun u => ?_) ?_
    · by_cases hu : u = t
      · exact hu ▸ hpt
      · exact hp u hu
    · rcases hxk with hxk | hxk | hxk
      · exact Or.inl hxk
      · exact (hpt hxk).elim
      · exact Or.inr hxk

omit [DecidableEq T] in
/-- Listed waiters keep their conditions. -/
theorem Lists.not_free (h : Lists s loc) {x : T} (hx : x ∈ s.waiters ∨ ∃ u, x ∈ (s.pc u).priv) :
    ¬ (loc x).Free := by
  rcases hx with hx | ⟨u, hx⟩
  · simp [(h.muQ.mem x).mp hx, Loc.Free]
  · simp [((h.priv u).mem x).mp hx, Loc.Free]

theorem Pc.lists_set {f : T → Pc T} {p : Pc T} (hlists : p.lists = (f t).lists) (u : T) :
    ((Function.update f t p) u).lists = (f u).lists := by
  by_cases hu : u = t
  · subst hu
    rw [Function.update_self, hlists]
  · rw [Function.update_of_ne hu]

/-- A step that leaves all lists alone. -/
theorem Good.simple [Fintype T] (h : Good E C s loc) (loc' : T → Loc T) {p : Pc T}
    (hpc : s'.pc = Function.update s.pc t p) (hlists : p.lists = (s.pc t).lists)
    (hwait : s'.waiters = s.waiters) (hcv : ∀ c, (s'.cv c).waiters = (s.cv c).waiters)
    (hlinks : s'.links = s.links)
    (hfree : ∀ x, loc' x = loc x ∨ ((loc x).Free ∧ (loc' x).Free))
    (hs : AStep E C t (s.abs loc) (s'.abs loc')) (hok : PcOk E C s' t) :
    Simulates E C t s loc s' := by
  have hlists' : ∀ u, (s'.pc u).lists = (s.pc u).lists := hpc ▸ Pc.lists_set hlists
  refine h.next loc' hs (fun u hu => by rw [hpc, Function.update_of_ne hu])
    (h.lists.congr hlists' hwait hcv hfree) hok (h.rings.congr
      (fun u => (Pc.lists_eq (hlists' u)).1) (fun u => (Pc.lists_eq (hlists' u)).2.1) hwait hlinks
      fun x hx => ?_)
  exact (hs.wtr_frame (x := x) (h.lists.not_free hx)).1

omit [DecidableEq T] in
theorem PcOk.of_ok {p : Pc T} (hp : s.pc t = p) (hok : p.Ok C (s.wtr t)) (ht : p.target = none)
    (hsc : p.scan? = none) : PcOk E C s t := by
  refine ⟨hp ▸ hok, by simp [hp, ht], by simp [hp, hsc], ?_⟩
  rw [hp]
  rcases p with _ | _ | _ | _ | ⟨m, k, p⟩ | _ | _ | _ | _ | _ | _ <;> try trivial
  cases p <;> simp_all [Pc.scan?, Pc.ScanPlace]

/-- The lists when a waiter that was on none of them joins the mutex queue. -/
theorem Lists.joinMu (h : Lists s loc) {x : T} (hlists : ∀ u, (s'.pc u).lists = (s.pc u).lists)
    (hcv : ∀ c, (s'.cv c).waiters = (s.cv c).waiters) (hx : (loc x).Free)
    (hwait : s'.waiters = s.waiters ++ [x] ∨ s'.waiters = x :: s.waiters) :
    Lists s' (Function.update loc x .muQ) := by
  have hne : ∀ l : Loc T, ¬ l.Free → loc x ≠ l := by
    rintro l hl rfl
    exact hl hx
  refine ⟨?_, fun u => ?_, fun u => ?_, fun c => ?_, fun u => ?_⟩
  · rcases hwait with hw | hw <;> rw [hw]
    · exact h.muQ.snoc (hne _ (by simp [Loc.Free]))
    · exact h.muQ.cons (hne _ (by simp [Loc.Free]))
  · rw [(Pc.lists_eq (hlists u)).2.2.2.2]
    exact (h.priv u).other (hne _ (by simp [Loc.Free])) (by simp)
  · rw [(Pc.lists_eq (hlists u)).2.2.1]
    exact (h.wake u).other (hne _ (by simp [Loc.Free])) (by simp)
  · rw [hcv]
    exact (h.cvQ c).other (hne _ (by simp [Loc.Free])) (by simp)
  · rw [(Pc.lists_eq (hlists u)).2.2.2.1]
    exact (h.toWake u).other (hne _ (by simp [Loc.Free])) (by simp)

/-- The lists when a waiter leaves the mutex queue and joins none. -/
theorem Lists.leaveMu (h : Lists s loc) {x : T} (hlists : ∀ u, (s'.pc u).lists = (s.pc u).lists)
    (hcv : ∀ c, (s'.cv c).waiters = (s.cv c).waiters) (hx : loc x = .muQ)
    (hwait : s'.waiters = s.waiters.erase x) : Lists s' (Function.update loc x .none) := by
  refine ⟨hwait ▸ h.muQ.erase (by simp), fun u => ?_, fun u => ?_, fun c => ?_, fun u => ?_⟩
  · rw [(Pc.lists_eq (hlists u)).2.2.2.2]
    exact (h.priv u).other (by simp [hx]) (by simp)
  · rw [(Pc.lists_eq (hlists u)).2.2.1]
    exact (h.wake u).other (by simp [hx]) (by simp)
  · rw [hcv]
    exact (h.cvQ c).other (by simp [hx]) (by simp)
  · rw [(Pc.lists_eq (hlists u)).2.2.2.1]
    exact (h.toWake u).other (by simp [hx]) (by simp)

omit [DecidableEq T] in
/-- A waiter on no list of the mutex is alone in its ring. -/
theorem Good.alone [Fintype T] (h : Good E C s loc) {x : T} (hx : loc x ≠ .muQ)
    (hp : ∀ u, loc x ≠ .priv u) : s.links.next x = x ∧ s.links.prev x = x :=
  h.rings.alone x (fun hm => hx ((h.lists.muQ.mem x).mp hm))
    fun u hm => hp u (((h.lists.priv u).mem x).mp hm)

theorem State.abs_th {p : Pc T} {b : Abs T} (hpc : s'.pc = Function.update s.pc t p)
    (hb : p.abs = b) : (s'.abs loc').th = Function.update (fun u => (s.pc u).abs) t b := by
  funext u
  by_cases hu : u = t
  · subst hu
    simp [State.abs, hpc, hb]
  · simp [State.abs, hpc, hu]

theorem AStep.of_eq {a b a' : AState T σ} (h : AStep E C t a b) (he : a' = b) :
    AStep E C t a a' := he ▸ h

/-- A step within one protocol state. -/
theorem Good.stutter [Fintype T] (h : Good E C s loc) {p : Pc T}
    (hpc : s'.pc = Function.update s.pc t p) (hlists : p.lists = (s.pc t).lists)
    (hwait : s'.waiters = s.waiters) (hcv : s'.cv = s.cv) (hlinks : s'.links = s.links)
    (hword : s'.word = s.word) (hw : ∀ u, (s'.wtr u).core = (s.wtr u).core)
    (hdeq : s'.dequeued = s.dequeued) (hprot : s'.prot = s.prot) (hsect : s'.sect = s.sect)
    (habs : p.abs = (s.pc t).abs) (hok : PcOk E C s' t) : Simulates E C t s loc s' := by
  refine h.simple loc hpc hlists hwait (fun c => by rw [hcv]) hlinks
    (fun _ => Or.inl rfl) (AStep.stutter.of_eq (AState.ext ?_ ?_ rfl ?_ hdeq ?_ hprot hsect)) hok
  · exact congrArg view hword
  · exact (State.abs_th hpc habs).trans (Function.update_eq_self t _)
  · exact funext hw
  · exact funext fun c => by simp [State.abs, hcv]

/-- A step that only moves the program counter, within one protocol state. -/
theorem Good.goto [Fintype T] (h : Good E C s loc) {p q : Pc T} (hpc : s.pc t = q)
    (hlists : p.lists = q.lists) (habs : p.abs = q.abs) (hok : p.Ok C (s.wtr t))
    (ht : p.target = none) (hsc : p.scan? = none) :
    Simulates E C t s loc (s.setPc t p) :=
  h.stutter rfl (hpc ▸ hlists) rfl rfl rfl rfl (fun _ => rfl) rfl rfl rfl (hpc ▸ habs)
    (PcOk.of_ok (p := p) (by simp [State.setPc]) hok ht hsc)

/-- Moving from `q` to `p` leaves the lists and the roles in locking alone. -/
structure Pc.SameRoles (q p : Pc T) : Prop where
  lists : p.lists = q.lists
  lock : p.lockRole = q.lockRole
  spin : p.spinRole = q.spinRole
  region : p.region = q.region
  cv : p.cvRole = q.cvRole
  trying : q.trying = true → p.trying = true
  long : q.longWaiter = true → p.longWaiter = true
  phase : p.longWaiter = true → p.phase = .redo ∨ p.phase = .slowWait
  ins : p.spinRole ≠ .ins
  mine : p.phase = .muMine → ∃ old, p.spinRole = .hold old
  new : ∀ c, p.phase = .cvNew c ∨ p.phase = .cvMine c → p.cvRole.addr = some c
  target : p.target = none
  scan : p.scan? = none

/-- The waiter has not just been found on a queue. -/
def Phase.ordinary : Phase → Bool
  | .muMine | .cvNew _ | .cvMine _ => false
  | _ => true

omit [DecidableEq T] in
theorem Pc.sameRoles {p q : Pc T} (hlists : p.lists = q.lists)
    (hroles : (p.lockRole, p.spinRole, p.region, p.cvRole) =
      (q.lockRole, q.spinRole, q.region, q.cvRole))
    (htry : q.trying = true → p.trying = true) (hlong : q.longWaiter = true → p.longWaiter = true)
    (hphase : p.longWaiter = true → p.phase = .redo ∨ p.phase = .slowWait)
    (hins : p.spinRole ≠ .ins) (hord : p.phase.ordinary = true) (ht : p.target = none)
    (hsc : p.scan? = none) : q.SameRoles p := by
  simp only [Prod.mk.injEq] at hroles
  obtain ⟨h1, h2, h3, h4⟩ := hroles
  refine ⟨hlists, h1, h2, h3, h4, htry, hlong, hphase, hins, fun hp => ?_, fun c hp => ?_, ht, hsc⟩
  · rw [hp] at hord
    cases hord
  · rcases hp with hp | hp <;> rw [hp] at hord <;> cases hord

/-- A step that changes only the program counter and the waiter of `t`. -/
theorem Good.own [Fintype T] (h : Good E C s loc) {p q : Pc T} {f : Waiter → Waiter}
    (hpc : s.pc t = q) (hr : q.SameRoles p) (hc : Compat (loc t) (f (s.wtr t)) p.phase)
    (hcond : (loc t).Free ∨ (f (s.wtr t)).cond = (s.wtr t).cond)
    (htype : loc t = .none ∨ (f (s.wtr t)).lType = (s.wtr t).lType)
    (hC : ∀ c, (f (s.wtr t)).cond = some c → C c) (hok : p.Ok C (f (s.wtr t))) :
    Simulates E C t s loc ((s.setWtr t f).setPc t p) := by
  subst hpc
  have hc' : Compat (loc t) (f (s.wtr t)).core p.phase := by
    cases hp : p.phase <;> rw [hp] at hc <;> exact hc
  have hmine : p.phase = .muMine → ∃ old, (s.pc t).spinRole = .hold old := hr.spin ▸ hr.mine
  have hnew : ∀ c, p.phase = .cvNew c ∨ p.phase = .cvMine c →
      (s.pc t).cvRole.addr = some c := hr.cv ▸ hr.new
  have hins : (s.pc t).spinRole ≠ .ins := hr.spin ▸ hr.ins
  have hstep := AStep.own (E := E) (C := C) (t := t) (a := s.abs loc) p.phase p.trying
    p.longWaiter (f (s.wtr t)).core hc' hmine hnew hcond htype hC hr.trying hr.long hr.phase hins
  refine h.simple loc (p := p) rfl hr.lists rfl (fun _ => rfl) rfl (fun _ => Or.inl rfl)
    (hstep.of_eq (AState.ext rfl ?_ rfl ?_ rfl rfl rfl rfl))
    (PcOk.of_ok (p := p) (by simp [State.setPc]) (by simpa [State.setPc, State.setWtr] using hok)
      hr.target hr.scan)
  · refine State.abs_th rfl ?_
    simp only [Pc.abs, State.abs, hr.lock, hr.spin, hr.region, hr.cv]
  · funext u
    by_cases hu : u = t
    · subst hu
      simp [State.abs, State.setPc, State.setWtr]
    · simp [State.abs, State.setPc, State.setWtr, hu]

/-- As before, with the waiter unchanged. -/
theorem Good.ownGoto [Fintype T] (h : Good E C s loc) {p q : Pc T}
    (hpc : s.pc t = q) (hr : q.SameRoles p) (hc : Compat (loc t) (s.wtr t) p.phase)
    (hok : p.Ok C (s.wtr t)) : Simulates E C t s loc (s.setPc t p) := by
  have := h.own (f := id) hpc hr hc (Or.inr rfl) (Or.inr rfl)
    (fun c hc => h.inv.place.conds t c hc) hok
  simpa [State.setWtr] using this

/-- A wait that takes a token from the semaphore. -/
theorem Good.semP [Fintype T] (h : Good E C s loc) {p q : Pc T} (hpc : s.pc t = q)
    (hlists : p.lists = q.lists) (habs : p.abs = q.abs) (hok : p.Ok C (s.wtr t))
    (ht : p.target = none) (hsc : p.scan? = none) (hs : semP s t p = some s') :
    Simulates E C t s loc s' := by
  rw [Nsync.Mu.semP] at hs
  split at hs
  · cases hs
    refine h.stutter rfl (hpc ▸ hlists) rfl rfl rfl rfl (fun u => ?_) rfl rfl rfl (hpc ▸ habs)
      (PcOk.of_ok (p := p) (by simp [State.setPc]) ?_ ht hsc)
    · by_cases hu : u = t
      · subst hu
        simp [State.setPc, State.setWtr, Waiter.core, Waiter.take]
      · simp [State.setPc, State.setWtr, hu]
    · exact hok.congr (by simp [State.setPc, State.setWtr, Waiter.take])
        (by simp [State.setPc, State.setWtr, Waiter.take])
  · cases hs

/-- A CAS that releases the spinlock only. -/
theorem Good.releaseSpin [Fintype T] (h : Good E C s loc) {p q : Pc T} (hpc : s.pc t = q)
    (hspin : q.spinRole = .plain) (hreg : q.region = true → q.lockRole = some .writer)
    (habs : p.abs = { q.abs with spin := .no }) (hlists : p.lists = q.lists)
    {w : Word} (hw : view w = (view s.word).releaseSpin)
    (hok : PcOk E C ((s.setWord w).setPc t p) t) :
    Simulates E C t s loc ((s.setWord w).setPc t p) := by
  subst hpc
  have hstep := AStep.releaseSpin (E := E) (C := C) (t := t) (a := s.abs loc) hspin hreg
  refine h.simple loc (p := p) rfl hlists rfl (fun _ => rfl) rfl (fun _ => Or.inl rfl)
    (hstep.of_eq (AState.ext hw (State.abs_th rfl habs) rfl rfl rfl rfl rfl rfl)) hok

end

end Nsync.Mu
