import Nsync.Mu.Queue

/-!
# Steps of a mutex system

One step of a thread is one atomic access of the source together with the
local work and the lock-protected list work next to it.  The functions below
follow `internal/mu.c`, `internal/mu_wait.c`, `internal/cv.c` and
`internal/debug.c`, one definition for each function of the source.
-/

namespace Nsync.Mu

open Nsync.Lib

variable {T σ : Type} [DecidableEq T]

/-! ## The words that the code writes -/

/-- `zero_to_acquire` in `nsync_mu_lock_slow_`. -/
def zeroToAcquire (m : Mode) (clear : Bool) : Word :=
  if clear then m.lockType.zeroToAcquire &&& ~~~(muWriterWaiting ||| muLongWait)
  else m.lockType.zeroToAcquire

def acquireWord (m : Mode) (clear longWait : Bool) (old : Word) : Word :=
  (old + m.lockType.addToAcquire) &&&
    ~~~(maskIf clear muDesigWaker ||| maskIf longWait muLongWait ||| m.lockType.clearOnAcquire)

def enqueueWord (m : Mode) (clear longWait : Bool) (old : Word) : Word :=
  (old ||| muSpinlock ||| maskIf longWait muLongWait ||| m.lockType.setWhenWaiting) &&&
    ~~~(maskIf clear muDesigWaker ||| muAllFalse)

/-- The word that `mu_release_spinlock` writes. -/
def releaseSpinlockWord (old : Word) : Word := old &&& ~~~muSpinlock

/-- The word that `nsync_spin_test_and_set_` writes. -/
def spinWord (set clear old : Word) : Word := (old ||| set) &&& ~~~clear

def uncontendedReleaseWord (m : Mode) (old : Word) : Word :=
  (old - m.lockType.addToAcquire) &&& ~~~m.lockType.clearOnUncontendedRelease

/-- `early_release_mu` -/
def earlyReleaseMu (m : Mode) (testing : Bool) : Word :=
  if testing then m.lockType.addToAcquire - muWlock else m.lockType.addToAcquire

def grabWord (m : Mode) (testing : Bool) (old : Word) : Word :=
  (old - earlyReleaseMu m testing) ||| muSpinlock ||| muDesigWaker

/-- `set_on_release` -/
def Release.setOnRelease (r : Release T) : Word :=
  maskIf r.setAllFalse muAllFalse ||| maskIf r.setWriterWaiting muWriterWaiting

/-- `clear_on_release` -/
def Release.clearOnRelease (r : Release T) : Word :=
  muSpinlock ||| maskIf r.wake.isEmpty muDesigWaker ||| maskIf (!r.setAllFalse) muAllFalse |||
    maskIf r.noneLeft (muWaiting ||| muWriterWaiting ||| muCondition ||| muAllFalse)

def finalWord (r : Release T) (old : Word) : Word :=
  ((old - maskIf r.late muWlock) ||| r.setOnRelease) &&& ~~~r.clearOnRelease

/-- `add_to_acquire` in `nsync_mu_wait_with_deadline`. -/
def muWaitAdd (l : MuWait) (old : Word) : Word :=
  if (old - l.lType.lockType.addToAcquire) &&& muAnyLock = 0#32 ∧ l.hadWaiters = true then 0#32
  else l.lType.lockType.addToAcquire

def muWaitReleaseWord (l : MuWait) (old : Word) : Word :=
  (old - muWaitAdd l old) &&& ~~~muSpinlock

def tryAcquireWord (old : Word) : Word :=
  (old + muWaddToAcquire + muSpinlock) &&& ~~~muWclearOnAcquire

def transferWord (old : Word) : Word := (old ||| muSpinlock ||| muWaiting) &&& ~~~muAllFalse

def transferReleaseWord (setWriterWaiting : Bool) (old : Word) : Word :=
  (old ||| maskIf setWriterWaiting muWriterWaiting) &&& ~~~muSpinlock

def cvSpinlock : Word := 1#32 <<< 0
def cvNonEmpty : Word := 1#32 <<< 1

/-! ## Updates of the state -/

namespace State

def setPc (s : State T σ) (t : T) (p : Pc T) : State T σ :=
  { s with pc := Function.update s.pc t p }

def setWord (s : State T σ) (w : Word) : State T σ := { s with word := w }

def setWtr (s : State T σ) (t : T) (f : Waiter → Waiter) : State T σ :=
  { s with wtr := Function.update s.wtr t (f (s.wtr t)) }

def setCv (s : State T σ) (c : Addr) (q : Cv T) : State T σ :=
  { s with cv := Function.update s.cv c q }

def setDequeued (s : State T σ) (t : T) (b : Bool) : State T σ :=
  { s with dequeued := Function.update s.dequeued t b }

/-- Thread `t` has acquired the mutex in mode `m`. -/
def acquired (s : State T σ) (t : T) (m : Mode) : State T σ :=
  { s.setDequeued t false with
    sect := match m with
      | .writer => s.prot
      | .reader => s.sect }

end State

def Waiter.setWaiting (b : Bool) (w : Waiter) : Waiter := { w with waiting := b }
def Waiter.post (E : Env σ) (w : Waiter) : Waiter := { w with sem := E.semV w.sem }
def Waiter.take (w : Waiter) : Waiter := { w with sem := w.sem - 1 }
def Waiter.removed (w : Waiter) : Waiter := { w with removeCount := w.removeCount + 1#32 }

/-! ## Acquiring -/

/-- The caller of a lock function goes on after the acquisition. -/
def afterLock (s : State T σ) (t : T) (m : Mode) : LockCont → State T σ
  | .ret => s.setPc t (.client (some m))
  | .muWait l => s.setPc t (.muWait l .evalCondition)
  | .cvWait l =>
      { s.setPc t (.client (some m)) with result := Function.update s.result t l.outcome }

/-- Entry of `nsync_mu_lock_slow_`. -/
def startLockSlow (s : State T σ) (t : T) (m : Mode) (clear : Bool) (k : LockCont) : State T σ :=
  (s.setWtr t fun w => { w with cvMu := false, cond := none, lType := m }).setPc t
    (.lockSlow ⟨m, clear, 0, false⟩ k .top)

/-- `nsync_mu_lock`, `nsync_mu_rlock`, `nsync_mu_trylock` and
`nsync_mu_rtrylock`. -/
def muLock (s : State T σ) (t : T) (m : Mode) (try_ : Bool) (k : LockCont) :
    LockPc → State T σ
  | .cas0 =>
      if s.word = 0#32 then
        afterLock ((s.setWord m.lockType.addToAcquire).acquired t m) t m k
      else s.setPc t (.lock m try_ k .load)
  | .load =>
      if s.word &&& m.lockType.zeroToAcquire = 0#32 then s.setPc t (.lock m try_ k (.cas s.word))
      else if try_ then s.setPc t (.client none)
      else startLockSlow s t m false k
  | .cas old =>
      if s.word = old then
        afterLock ((s.setWord (acquireWord m false false old)).acquired t m) t m k
      else if try_ then s.setPc t (.client none)
      else startLockSlow s t m false k

/-- A wait for the semaphore: blocked while its count is zero. -/
def semP (s : State T σ) (t : T) (p : Pc T) : Option (State T σ) :=
  if 0 < (s.wtr t).sem then some ((s.setWtr t Waiter.take).setPc t p) else none

def longWaitThreshold : ℕ := 30

/-- `nsync_mu_lock_slow_` -/
def muLockSlow (s : State T σ) (t : T) (l : LockSlow) (k : LockCont) :
    LockSlowPc → Option (State T σ)
  | .top =>
      if s.word &&& zeroToAcquire l.lType l.clear = 0#32 then
        some (s.setPc t (.lockSlow l k (.acquire s.word)))
      else if s.word &&& muSpinlock = 0#32 then
        some (s.setPc t (.lockSlow l k (.enqueue s.word)))
      else some (s.setPc t (.lockSlow l k .top))
  | .acquire old =>
      if s.word = old then
        some (afterLock
          ((s.setWord (acquireWord l.lType l.clear l.longWait old)).acquired t l.lType) t l.lType k)
      else some (s.setPc t (.lockSlow l k .top))
  | .enqueue old =>
      if s.word = old then
        some (((s.setWord (enqueueWord l.lType l.clear l.longWait old)).setDequeued t false).setPc t
          (.lockSlow l k .insert))
      else some (s.setPc t (.lockSlow l k .top))
  | .insert =>
      some { (s.setWtr t (Waiter.setWaiting true)).setPc t (.lockSlow l k (.release .load)) with
        waiters := if l.waitCount = 0 then s.waiters ++ [t] else t :: s.waiters }
  | .release .load => some (s.setPc t (.lockSlow l k (.release (.cas s.word))))
  | .release (.cas old) =>
      if s.word = old then
        some ((s.setWord (releaseSpinlockWord old)).setPc t (.lockSlow l k .waitLoad))
      else some (s.setPc t (.lockSlow l k (.release .load)))
  | .waitLoad =>
      if (s.wtr t).waiting then some (s.setPc t (.lockSlow l k .sem))
      else
        -- woken: from now on only mutual exclusion stops this thread
        let waitCount := (l.waitCount + 1) % 2 ^ 32
        some (s.setPc t (.lockSlow
          { l with
            waitCount := waitCount
            longWait := l.longWait || waitCount == longWaitThreshold
            clear := true } k .top))
  | .sem => semP s t (.lockSlow l k .waitLoad)

/-! ## Releasing -/

/-- The caller of an unlock function goes on after the release. -/
def afterUnlock (s : State T σ) (t : T) : UnlockCont → State T σ
  | .ret => s.setPc t (.client none)
  | .muWait l => s.setPc t (.muWait l .waitLoad)
  | .cvWait l => s.setPc t (.cvWait l .waitLoad)

/-- Take the new waiters off the mutex queue and go to the head of the outer
loop of `nsync_mu_unlock_slow_`; when there are none, return the scanned
waiters to the mutex and prepare the last CAS. -/
def scanNext (s : State T σ) (t : T) (m : Mode) (k : UnlockCont) (sc : Scan T) : State T σ :=
  match s.waiters with
  | [] =>
      { s.setPc t (.unlockSlow m k (.final
          { late := sc.late
            setWriterWaiting := sc.setWriterWaiting
            setAllFalse := sc.setAllFalse
            noneLeft := sc.waiters.isEmpty
            wake := sc.wake } .load)) with
        waiters := sc.waiters }
  | p :: rest =>
      let testing := sc.testing && !(sc.wakeType == some .writer) &&
        !(sc.wakeType == none && (s.wtr p).lType == .writer && (s.wtr p).cond == none)
      let sc' := { sc with testing := testing, newWaiters := p :: rest, p := some p }
      { s.setPc t (.unlockSlow m k
          (if testing then .scanRelease sc' .load else .scan sc')) with
        waiters := [] }

/-- The end of one round of the outer loop, with the spinlock held: append the
scanned new waiters to the others and pick up the next set. -/
def scanAppend (E : Env σ) (s : State T σ) (t : T) (m : Mode) (k : UnlockCont) (sc : Scan T) :
    State T σ :=
  scanNext
    { s with
      links := maybeMergeConditions E s.wtr s.links sc.waiters.getLast? sc.newWaiters.head? }
    t m k { sc with waiters := sc.waiters ++ sc.newWaiters, newWaiters := [], p := none }

/-- `condition_true` -/
def conditionTrue (E : Env σ) (s : State T σ) (x : T) : Bool :=
  match (s.wtr x).cond with
  | some c => c.holds E s.prot
  | none => true

/-- The inner loop of the scan, at element `sc.p`. -/
def scanStep (E : Env σ) (s : State T σ) (t : T) (m : Mode) (k : UnlockCont) (sc : Scan T) :
    State T σ :=
  match sc.p with
  | none => scanEnd none
  | some x =>
      if sc.wakeType = some .writer then scanEnd (some x)
      else if (s.wtr x).cond ≠ none ∧ sc.testing = false then s.setPc t .panicked
      else if (s.wtr x).cond ≠ none ∧ conditionTrue E s x = false then
        s.setPc t (.unlockSlow m k
          (.scan { sc with p := skipPastSameCondition s.links sc.newWaiters x }))
      else if sc.wakeType = none ∨ (s.wtr x).lType = .reader then
        s.setPc t (.unlockSlow m k (.scanRemove sc x .load))
      else
        s.setPc t (.unlockSlow m k (.scan { sc with
          p := dllNext sc.newWaiters x
          setWriterWaiting := true
          setAllFalse := false }))
where
  scanEnd (p : Option T) : State T σ :=
    let sc' := { sc with setAllFalse := sc.setAllFalse && p.isNone }
    if sc.testing then s.setPc t (.unlockSlow m k (.scanSpin sc' .load))
    else scanAppend E s t m k sc'

/-- Wake the next waiter of the wake list, or return. -/
def wakeNext (s : State T σ) (t : T) (m : Mode) (k : UnlockCont) : List T → State T σ
  | [] => afterUnlock s t k
  | x :: wake => s.setPc t (.unlockSlow m k (.wakeStore x wake))

/-- `nsync_mu_unlock_slow_` -/
def muUnlockSlow (E : Env σ) (s : State T σ) (t : T) (m : Mode) (k : UnlockCont) :
    UnlockSlowPc T → State T σ
  | .top =>
      if s.word &&& muWaiting = 0#32 ∨ s.word &&& muDesigWaker ≠ 0#32 ∨
          muRlock < s.word &&& muRlockField ∨
          s.word &&& (muRlock ||| muAllFalse) = muRlock ||| muAllFalse then
        s.setPc t (.unlockSlow m k (.fast s.word))
      else if s.word &&& muSpinlock = 0#32 then s.setPc t (.unlockSlow m k (.grab s.word))
      else s.setPc t (.unlockSlow m k .top)
  | .fast old =>
      if s.word = old then afterUnlock (s.setWord (uncontendedReleaseWord m old)) t k
      else s.setPc t (.unlockSlow m k .top)
  | .grab old =>
      let testing := decide (old &&& muCondition ≠ 0#32)
      if s.word = old then
        scanNext (s.setWord (grabWord m testing old)) t m k
          { testing := testing, late := testing, waiters := [], newWaiters := [], p := none,
            wake := [], wakeType := none, setWriterWaiting := false, setAllFalse := true }
      else s.setPc t (.unlockSlow m k .top)
  | .scanRelease sc .load => s.setPc t (.unlockSlow m k (.scanRelease sc (.cas s.word)))
  | .scanRelease sc (.cas old) =>
      if s.word = old then
        (s.setWord (releaseSpinlockWord old)).setPc t (.unlockSlow m k (.scan sc))
      else s.setPc t (.unlockSlow m k (.scanRelease sc .load))
  | .scan sc => scanStep E s t m k sc
  | .scanRemove sc x .load =>
      s.setPc t (.unlockSlow m k (.scanRemove sc x (.cas (s.wtr x).removeCount)))
  | .scanRemove sc x (.cas old) =>
      if (s.wtr x).removeCount = old then
        { ((s.setWtr x Waiter.removed).setDequeued x true).setPc t (.unlockSlow m k (.scan { sc with
            p := dllNext sc.newWaiters x
            newWaiters := sc.newWaiters.erase x
            wake := sc.wake ++ [x]
            wakeType := some (s.wtr x).lType })) with
          links := removeSameCondition E s.wtr s.links sc.newWaiters x }
      else s.setPc t (.unlockSlow m k (.scanRemove sc x .load))
  | .scanSpin sc .load =>
      if s.word &&& muSpinlock = 0#32 then
        s.setPc t (.unlockSlow m k (.scanSpin sc (.cas s.word)))
      else s.setPc t (.unlockSlow m k (.scanSpin sc .load))
  | .scanSpin sc (.cas old) =>
      if s.word = old then scanAppend E (s.setWord (spinWord muSpinlock 0#32 old)) t m k sc
      else s.setPc t (.unlockSlow m k (.scanSpin sc .load))
  | .final r .load => s.setPc t (.unlockSlow m k (.final r (.cas s.word)))
  | .final r (.cas old) =>
      if s.word = old then wakeNext (s.setWord (finalWord r old)) t m k r.wake
      else s.setPc t (.unlockSlow m k (.final r .load))
  | .wakeStore x wake =>
      (s.setWtr x (Waiter.setWaiting false)).setPc t (.unlockSlow m k (.wakeSem x wake))
  | .wakeSem x wake => wakeNext (s.setWtr x (Waiter.post E)) t m k wake

namespace UnlockKind

def mode : UnlockKind → Mode
  | .unlock => .writer
  | .runlock => .reader
  | .withoutWakeup => .writer

/-- The word that the last CAS of the fast path writes. -/
def newWord : UnlockKind → Word → Word
  | .unlock, old => (old - muWlock) &&& ~~~muAllFalse
  | .runlock, old => old - muRlock
  | .withoutWakeup, old => old - muWlock

/-- The sanity check before the release. -/
def panics : UnlockKind → Word → Prop
  | .runlock, old => (old ^^^ muWlock) &&& (muWlock ||| muRlockField) = 0#32
  | kind, old => kind.newWord old &&& (muRlockField ||| muWlock) ≠ 0#32

instance (kind : UnlockKind) (old : Word) : Decidable (kind.panics old) := by
  cases kind <;> simp only [panics] <;> infer_instance

/-- The test that sends a release to the slow path. -/
def goesSlow : UnlockKind → Word → Prop
  | .unlock, old => old &&& (muWaiting ||| muDesigWaker) = muWaiting
  | .runlock, old => old &&& (muWaiting ||| muDesigWaker) = muWaiting ∧
      old &&& (muRlockField ||| muAllFalse) = muRlock
  | .withoutWakeup, old => old &&& (muWaiting ||| muDesigWaker ||| muAllFalse) = muWaiting

instance (kind : UnlockKind) (old : Word) : Decidable (kind.goesSlow old) := by
  cases kind <;> simp only [goesSlow] <;> infer_instance

end UnlockKind

/-- `nsync_mu_unlock`, `nsync_mu_runlock` and
`nsync_mu_unlock_without_wakeup`. -/
def muUnlock (s : State T σ) (t : T) (kind : UnlockKind) (k : UnlockCont) :
    UnlockPc → State T σ
  | .cas0 =>
      if s.word = kind.mode.lockType.addToAcquire then afterUnlock (s.setWord 0#32) t k
      else s.setPc t (.unlock kind k .load)
  | .load =>
      if kind.panics s.word then s.setPc t .panicked
      else if kind.goesSlow s.word then s.setPc t (.unlockSlow kind.mode k .top)
      else s.setPc t (.unlock kind k (.cas s.word))
  | .cas old =>
      if s.word = old then afterUnlock (s.setWord (kind.newWord old)) t k
      else s.setPc t (.unlockSlow kind.mode k .top)

/-! ## Waiting for a condition of the mutex -/

/-- How a wait on a semaphore ends. -/
inductive Choice where
  | run
  | timeout
  | cancel
  deriving DecidableEq, Repr

/-- `nsync_sem_wait_with_cancel_`: it takes a token, or, if the wait can expire,
ends at any moment with a timeout or a cancellation. -/
def semWaitWithCancel (s : State T σ) (t : T) (expires : Bool) (p : Outcome → Pc T) :
    Choice → Option (State T σ)
  | .run => semP s t (p .ok)
  | .timeout => if expires then some (s.setPc t (p .timedOut)) else none
  | .cancel => if expires then some (s.setPc t (p .canceled)) else none

/-- The places of `mu_try_acquire_after_timeout_or_cancel`, and of its caller
`nsync_mu_wait_with_deadline`. -/
def muWaitWithDeadline (E : Env σ) (s : State T σ) (t : T) (l : MuWait) (ch : Choice) :
    MuWaitPc → Option (State T σ)
  | .loadWord =>
      if s.word &&& muAnyLock = 0#32 then some (s.setPc t .panicked)
      else
        let lType := if s.word &&& muRheldIfNonZero ≠ 0#32 then Mode.reader else Mode.writer
        some (s.setPc t (.muWait { l with lType := lType } .evalCondition))
  | .evalCondition =>
      let conditionIsTrue := match l.condition with
        | none => true
        | some c => c.holds E s.prot
      if l.outcome = .ok ∧ conditionIsTrue = false then
        some ((s.setWtr t fun w =>
          { w with cvMu := false, lType := l.lType, cond := l.condition }).setPc t
            (.muWait l .storeWaiting))
      else
        some { s.setPc t (.client (some l.lType)) with
          result := Function.update s.result t (if conditionIsTrue then .ok else l.outcome) }
  | .storeWaiting =>
      some ((s.setWtr t (Waiter.setWaiting true)).setPc t (.muWait l .loadRemoveCount))
  | .loadRemoveCount =>
      some (s.setPc t (.muWait { l with removeCount := (s.wtr t).removeCount } (.enqueue .load)))
  | .enqueue .load =>
      if s.word &&& muSpinlock = 0#32 then some (s.setPc t (.muWait l (.enqueue (.cas s.word))))
      else some (s.setPc t (.muWait l (.enqueue .load)))
  | .enqueue (.cas old) =>
      if s.word = old then
        let set := muSpinlock ||| muWaiting ||| maskIf l.condition.isSome muCondition
        let l' := { l with
          hadWaiters := decide (old &&& (muDesigWaker ||| muWaiting) = muWaiting)
          firstWait := false }
        some { ((s.setWord (spinWord set muAllFalse old)).setDequeued t false).setPc t
              (.muWait l' (.release .load)) with
          waiters := if l.firstWait then s.waiters ++ [t] else t :: s.waiters
          links :=
            if l.firstWait then maybeMergeConditions E s.wtr s.links s.waiters.getLast? (some t)
            else maybeMergeConditions E s.wtr s.links (some t) s.waiters.head? }
      else some (s.setPc t (.muWait l (.enqueue .load)))
  | .release .load => some (s.setPc t (.muWait l (.release (.cas s.word))))
  | .release (.cas old) =>
      if s.word = old then
        let l' := { l with semOutcome := .ok, haveLock := false }
        let s' := s.setWord (muWaitReleaseWord l old)
        if muWaitAdd l old = 0#32 then
          some (s'.setPc t (.unlockSlow l.lType (.muWait l') .top))
        else some (s'.setPc t (.muWait l' .waitLoad))
      else some (s.setPc t (.muWait l (.release .load)))
  | .waitLoad =>
      if (s.wtr t).waiting then
        if l.semOutcome = .ok then some (s.setPc t (.muWait l .sem))
        else some (s.setPc t (.muWait l .delay))
      else if l.haveLock then some (s.setPc t (.muWait l .evalCondition))
      else some (startLockSlow s t l.lType true (.muWait l))
  | .sem =>
      semWaitWithCancel s t l.expires (fun o =>
        if o = .ok then .muWait { l with semOutcome := o } .delay
        else .muWait { l with semOutcome := o } .recheck) ch
  | .recheck =>
      if (s.wtr t).waiting then some (s.setPc t (.muWait l .tryLoad))
      else some (s.setPc t (.muWait l .delay))
  | .tryLoad =>
      if s.word &&& (muWzeroToAcquire ||| muSpinlock) = 0#32 then
        some (s.setPc t (.muWait l (.tryAcquire s.word)))
      else if s.word &&& (muWriterWaiting ||| muSpinlock) = 0#32 then
        some (s.setPc t (.muWait l (.trySetWriterWaiting s.word)))
      else some (s.setPc t (.muWait l .tryLoad))
  | .tryAcquire old =>
      if s.word = old then
        some ((s.setWord (tryAcquireWord old)).setPc t (.muWait l (.tryCheckWaiting old)))
      else if old &&& (muWriterWaiting ||| muSpinlock) = 0#32 then
        some (s.setPc t (.muWait l (.trySetWriterWaiting old)))
      else some (s.setPc t (.muWait l .tryLoad))
  | .trySetWriterWaiting old =>
      if s.word = old then
        some ((s.setWord (old ||| muWriterWaiting)).setPc t (.muWait l .tryLoad))
      else some (s.setPc t (.muWait l .tryLoad))
  | .tryCheckWaiting old =>
      if (s.wtr t).waiting then some (s.setPc t (.muWait l (.tryCheckCount old)))
      else some (s.setPc t (.muWait l (.tryStoreFailed old)))
  | .tryCheckCount old =>
      if l.removeCount = (s.wtr t).removeCount then
        some (s.setPc t (.muWait l (.tryRemove old .load)))
      else some (s.setPc t (.muWait l (.tryStoreFailed old)))
  | .tryRemove old .load =>
      some (s.setPc t (.muWait l (.tryRemove old (.cas (s.wtr t).removeCount))))
  | .tryRemove old (.cas rc) =>
      if (s.wtr t).removeCount = rc then
        some { (s.setWtr t Waiter.removed).setPc t (.muWait l (.tryClearWaiting old)) with
          waiters := s.waiters.erase t
          links := removeSameCondition E s.wtr s.links s.waiters t }
      else some (s.setPc t (.muWait l (.tryRemove old .load)))
  | .tryClearWaiting old =>
      some ((s.setWtr t (Waiter.setWaiting false)).setPc t (.muWait l (.tryStoreAcquired old)))
  | .tryStoreAcquired old =>
      some (((s.setWord (old + l.lType.lockType.addToAcquire)).acquired t l.lType).setPc t
        (.muWait { l with haveLock := true, outcome := l.semOutcome } .delay))
  | .tryStoreFailed old => some ((s.setWord old).setPc t (.muWait l .delay))
  | .delay => some (s.setPc t (.muWait l .waitLoad))

/-! ## Waiting on a condition variable -/

/-- `nsync_cv_wait_with_deadline_generic`, called with an `nsync_mu`. -/
def cvWaitWithDeadline (s : State T σ) (t : T) (l : CvWait) (ch : Choice) :
    CvWaitPc → Option (State T σ)
  | .storeWaiting =>
      some ((s.setWtr t fun w => { w with waiting := true, cond := none, cvMu := true }).setPc t
        (.cvWait l .loadMuWord))
  | .loadMuWord =>
      let isWriter := s.word &&& muWheldIfNonZero ≠ 0#32
      let isReader := s.word &&& muRheldIfNonZero ≠ 0#32
      if isWriter then
        if isReader then some (s.setPc t .panicked)
        else some ((s.setWtr t fun w => { w with lType := .writer }).setPc t
          (.cvWait { l with lType := .writer } (.enqueue .load)))
      else if isReader then
        some ((s.setWtr t fun w => { w with lType := .reader }).setPc t
          (.cvWait { l with lType := .reader } (.enqueue .load)))
      else some (s.setPc t .panicked)
  | .enqueue .load =>
      if (s.cv l.pcv).word &&& cvSpinlock = 0#32 then
        some (s.setPc t (.cvWait l (.enqueue (.cas (s.cv l.pcv).word))))
      else some (s.setPc t (.cvWait l (.enqueue .load)))
  | .enqueue (.cas old) =>
      if (s.cv l.pcv).word = old then
        some ((s.setCv l.pcv
          ⟨spinWord (cvSpinlock ||| cvNonEmpty) 0#32 old, (s.cv l.pcv).waiters ++ [t]⟩).setPc t
            (.cvWait l (.loadRemoveCount old)))
      else some (s.setPc t (.cvWait l (.enqueue .load)))
  | .loadRemoveCount old =>
      some (s.setPc t (.cvWait { l with removeCount := (s.wtr t).removeCount } (.storeWord old)))
  | .storeWord old =>
      some ((s.setCv l.pcv { s.cv l.pcv with word := old ||| cvNonEmpty }).setPc t
        (.unlock (if l.lType = .reader then .runlock else .unlock) (.cvWait l) .cas0))
  | .waitLoad =>
      if (s.wtr t).waiting then
        if l.semOutcome = .ok then some (s.setPc t (.cvWait l .sem))
        else some (s.setPc t (.cvWait l .recheck))
      else if (s.wtr t).cvMu = false then
        -- moved to the queue of the mutex, and woken from there
        some (startLockSlow s t (s.wtr t).lType true (.cvWait l))
      else some (s.setPc t (.lock l.lType false (.cvWait l) .cas0))
  | .sem =>
      semWaitWithCancel s t l.expires (fun o =>
        .cvWait { l with semOutcome := o } (if o = .ok then .delay else .recheck)) ch
  | .recheck =>
      if (s.wtr t).waiting then some (s.setPc t (.cvWait l (.spin .load)))
      else some (s.setPc t (.cvWait l .delay))
  | .spin .load =>
      if (s.cv l.pcv).word &&& cvSpinlock = 0#32 then
        some (s.setPc t (.cvWait l (.spin (.cas (s.cv l.pcv).word))))
      else some (s.setPc t (.cvWait l (.spin .load)))
  | .spin (.cas old) =>
      if (s.cv l.pcv).word = old then
        some ((s.setCv l.pcv { s.cv l.pcv with word := spinWord cvSpinlock 0#32 old }).setPc t
          (.cvWait l (.checkWaiting old)))
      else some (s.setPc t (.cvWait l (.spin .load)))
  | .checkWaiting old =>
      if (s.wtr t).waiting then some (s.setPc t (.cvWait l (.checkCount old)))
      else some (s.setPc t (.cvWait l (.releaseWord old)))
  | .checkCount old =>
      if l.removeCount = (s.wtr t).removeCount then
        some (s.setPc t (.cvWait { l with outcome := l.semOutcome } (.remove old .load)))
      else some (s.setPc t (.cvWait l (.releaseWord old)))
  | .remove old .load =>
      some (s.setPc t (.cvWait l (.remove old (.cas (s.wtr t).removeCount))))
  | .remove old (.cas rc) =>
      if (s.wtr t).removeCount = rc then
        let rest := (s.cv l.pcv).waiters.erase t
        some (((s.setCv l.pcv { s.cv l.pcv with waiters := rest }).setWtr t Waiter.removed).setPc t
          (.cvWait l (.clearWaiting (if rest = [] then old &&& ~~~cvNonEmpty else old))))
      else some (s.setPc t (.cvWait l (.remove old .load)))
  | .clearWaiting old =>
      some ((s.setWtr t (Waiter.setWaiting false)).setPc t (.cvWait l (.releaseWord old)))
  | .releaseWord old =>
      some ((s.setCv l.pcv { s.cv l.pcv with word := old }).setPc t (.cvWait l .delay))
  | .delay => some (s.setPc t (.cvWait l .waitLoad))

/-! ## Signalling -/

/-- The waiters that `wake_waiters` moves to the mutex queue, those it leaves
to be woken, and its two flags. -/
structure Transfer (T : Type) where
  moved : List T
  left : List T
  transferredAWriter : Bool
  wokeAReader : Bool

/-- The loop of `wake_waiters` over the waiters after the first one. -/
def transferRest (firstCantAcquire firstIsWriter : Bool) (isWriter : T → Bool) :
    List T → Transfer T → Transfer T
  | [], r => r
  | p :: rest, r =>
      transferRest firstCantAcquire firstIsWriter isWriter rest
        (if firstCantAcquire || firstIsWriter || isWriter p then
          { r with
            moved := r.moved ++ [p]
            transferredAWriter := r.transferredAWriter || isWriter p }
        else
          { r with
            left := r.left ++ [p]
            wokeAReader := r.wokeAReader || !isWriter p })

def transfer (firstCantAcquire : Bool) (isWriter : T → Bool) : List T → Transfer T
  | [] => ⟨[], [], false, false⟩
  | first :: rest =>
      transferRest firstCantAcquire (isWriter first) isWriter rest
        (if firstCantAcquire then ⟨[first], [], isWriter first, false⟩
        else ⟨[], [first], false, !isWriter first⟩)

/-- The last loop of `wake_waiters`: wake the next waiter, or return. -/
def wakeStart (s : State T σ) (t : T) (l : Wake T) : State T σ :=
  if l.toWake = [] then s.setPc t (.client l.held) else s.setPc t (.wakeWaiters l .store)

/-- `wake_waiters` -/
def wakeWaiters (E : Env σ) (s : State T σ) (t : T) (l : Wake T) : WakePc T → State T σ
  | .load =>
      match l.toWake with
      | [] => s.setPc t (.client l.held)
      | first :: rest =>
          let firstCantAcquire :=
            decide (s.word &&& (s.wtr first).lType.lockType.zeroToAcquire ≠ 0#32)
          if s.word &&& muAnyLock ≠ 0#32 ∧ s.word &&& muSpinlock = 0#32 ∧
              (firstCantAcquire = true ∨ (rest ≠ [] ∧ l.allReaders = false)) then
            s.setPc t (.wakeWaiters l (.cas s.word))
          else wakeStart s t l
  | .cas old =>
      match l.toWake with
      | [] => s.setPc t (.client l.held)
      | first :: _ =>
          if s.word = old then
            let firstCantAcquire :=
              decide (old &&& (s.wtr first).lType.lockType.zeroToAcquire ≠ 0#32)
            let r := transfer firstCantAcquire (fun x => (s.wtr x).lType == .writer) l.toWake
            { (s.setWord (transferWord old)).setPc t (.wakeWaiters { l with toWake := r.left }
                (.release (r.transferredAWriter && !r.wokeAReader) .load)) with
              waiters := s.waiters ++ r.moved
              wtr := fun x => if x ∈ r.moved then { s.wtr x with cvMu := false } else s.wtr x }
          else wakeStart s t l
  | .release set .load => s.setPc t (.wakeWaiters l (.release set (.cas s.word)))
  | .release set (.cas old) =>
      if s.word = old then wakeStart (s.setWord (transferReleaseWord set old)) t l
      else s.setPc t (.wakeWaiters l (.release set .load))
  | .store =>
      match l.toWake with
      | [] => s.setPc t (.client l.held)
      | x :: rest =>
          (s.setWtr x (Waiter.setWaiting false)).setPc t
            (.wakeWaiters { l with toWake := rest } (.sem x))
  | .sem x => wakeStart (s.setWtr x (Waiter.post E)) t l

/-- The selected waiters are off the queue: clear `CV_NON_EMPTY` if none is
left.  A broadcast stores 0. -/
def signalDone (s : State T σ) (t : T) (l : Signal T) (old : Word) : State T σ :=
  s.setPc t (.signal l (.storeWord
    (if l.broadcast then 0#32
    else if (s.cv l.pcv).waiters = [] then old &&& ~~~cvNonEmpty else old)))

/-- `nsync_cv_signal` and `nsync_cv_broadcast`. -/
def cvSignal (s : State T σ) (t : T) (l : Signal T) : SignalPc T → State T σ
  | .loadWord =>
      if (s.cv l.pcv).word &&& cvNonEmpty ≠ 0#32 then s.setPc t (.signal l (.spin .load))
      else s.setPc t (.client l.held)
  | .spin .load =>
      if (s.cv l.pcv).word &&& cvSpinlock = 0#32 then
        s.setPc t (.signal l (.spin (.cas (s.cv l.pcv).word)))
      else s.setPc t (.signal l (.spin .load))
  | .spin (.cas old) =>
      if (s.cv l.pcv).word = old then
        let s' := s.setCv l.pcv { s.cv l.pcv with word := spinWord cvSpinlock 0#32 old }
        match (s.cv l.pcv).waiters with
        | [] =>
            s'.setPc t (.signal { l with p := none } (.storeWord (if l.broadcast then 0#32 else old)))
        | first :: _ =>
            if l.broadcast then
              s'.setPc t (.signal { l with p := some first, allReaders := true } (.loop old))
            else s'.setPc t (.signal l (.removeFirst old first .load))
      else s.setPc t (.signal l (.spin .load))
  | .removeFirst old x .load =>
      s.setPc t (.signal l (.removeFirst old x (.cas (s.wtr x).removeCount)))
  | .removeFirst old x (.cas rc) =>
      if (s.wtr x).removeCount = rc then
        let rest := (s.cv l.pcv).waiters.erase x
        let s' := (s.setCv l.pcv { s.cv l.pcv with waiters := rest }).setWtr x Waiter.removed
        let l' := { l with toWake := [x] }
        if (s.wtr x).lType = .reader then
          s'.setPc t (.signal { l' with allReaders := true, p := rest.head? } (.loop old))
        else signalDone s' t l' old
      else s.setPc t (.signal l (.removeFirst old x .load))
  | .loop old =>
      match l.p with
      | none => signalDone s t l old
      | some x =>
          if l.broadcast then
            s.setPc t (.signal
              { l with allReaders := l.allReaders && (s.wtr x).lType == .reader }
              (.remove old x .load))
          else if (s.wtr x).lType = .reader then s.setPc t (.signal l (.remove old x .load))
          else if l.wokeWriter = false then
            s.setPc t (.signal { l with wokeWriter := true, allReaders := false }
              (.remove old x .load))
          else
            s.setPc t (.signal { l with p := dllNext (s.cv l.pcv).waiters x } (.loop old))
  | .remove old x .load =>
      s.setPc t (.signal l (.remove old x (.cas (s.wtr x).removeCount)))
  | .remove old x (.cas rc) =>
      if (s.wtr x).removeCount = rc then
        ((s.setCv l.pcv { s.cv l.pcv with waiters := (s.cv l.pcv).waiters.erase x }).setWtr x
          Waiter.removed).setPc t
          (.signal { l with toWake := l.toWake ++ [x], p := dllNext (s.cv l.pcv).waiters x }
            (.loop old))
      else s.setPc t (.signal l (.remove old x .load))
  | .storeWord old =>
      let s' := s.setCv l.pcv { s.cv l.pcv with word := old }
      match l.toWake with
      | [] => s'.setPc t (.client l.held)
      | first :: _ =>
          s'.setPc t (.wakeWaiters ⟨l.held, l.toWake, l.allReaders⟩
            (if (s.wtr first).cvMu then .load else .store))

/-! ## Debugging output -/

/-- The shared accesses of `emit_mu_state` and `emit_cv_state`, called with
`blocking` equal to `print_waiters`; what is printed is left out. -/
def debugState (s : State T σ) (t : T) (l : Debug) : DebugPc → State T σ
  | .load =>
      let waiting := match l.target with
        | none => s.word &&& muWaiting
        | some c => (s.cv c).word &&& cvNonEmpty
      if waiting ≠ 0#32 ∧ l.printWaiters = true then s.setPc t (.debug l (.spin .load))
      else s.setPc t (.client l.held)
  | .spin .load =>
      match l.target with
      | none =>
          if s.word &&& muSpinlock = 0#32 then s.setPc t (.debug l (.spin (.cas s.word)))
          else s.setPc t (.debug l (.spin .load))
      | some c =>
          if (s.cv c).word &&& cvSpinlock = 0#32 then
            s.setPc t (.debug l (.spin (.cas (s.cv c).word)))
          else s.setPc t (.debug l (.spin .load))
  | .spin (.cas old) =>
      match l.target with
      | none =>
          if s.word = old then
            (s.setWord (spinWord muSpinlock 0#32 old)).setPc t (.debug l (.store old))
          else s.setPc t (.debug l (.spin .load))
      | some c =>
          if (s.cv c).word = old then
            (s.setCv c { s.cv c with word := spinWord cvSpinlock 0#32 old }).setPc t
              (.debug l (.store old))
          else s.setPc t (.debug l (.spin .load))
  | .store word =>
      match l.target with
      | none => (s.setWord word).setPc t (.client l.held)
      | some c => (s.setCv c { s.cv c with word := word }).setPc t (.client l.held)

/-! ## Calls and runs -/

/-- The calls that a client makes; `setProt` is a write to the state that the
mutex protects. -/
inductive Call (σ : Type) where
  | lock (m : Mode)
  | tryLock (m : Mode)
  | unlock (kind : UnlockKind)
  | muWait (condition : Option WaitCondition) (expires : Bool)
  | cvWait (pcv : Addr) (expires : Bool)
  | signal (pcv : Addr) (broadcast : Bool)
  | debug (target : Option Addr) (printWaiters : Bool)
  | setProt (x : σ)

/-- A call made by a thread that holds the mutex in mode `held`.  A thread does
not acquire a mutex that it holds, and releases only what it holds. -/
def callStep (s : State T σ) (t : T) (held : Option Mode) : Call σ → Option (State T σ)
  | .lock m => if held = none then some (s.setPc t (.lock m false .ret .cas0)) else none
  | .tryLock m => if held = none then some (s.setPc t (.lock m true .ret .cas0)) else none
  | .unlock kind =>
      if held = some kind.mode then some (s.setPc t (.unlock kind .ret .cas0)) else none
  | .muWait condition expires => held.map fun m =>
      s.setPc t (.muWait
        { entry := m, lType := m, condition := condition, expires := expires, firstWait := true,
          removeCount := 0#32, hadWaiters := false, semOutcome := .ok, haveLock := false,
          outcome := .ok } .loadWord)
  | .cvWait pcv expires => held.map fun m =>
      s.setPc t (.cvWait
        { entry := m, pcv := pcv, lType := m, expires := expires, removeCount := 0#32,
          semOutcome := .ok, outcome := .ok } .storeWaiting)
  | .signal pcv broadcast =>
      some (s.setPc t (.signal
        { held := held, pcv := pcv, broadcast := broadcast, toWake := [], allReaders := false,
          wokeWriter := false, p := none } .loadWord))
  | .debug target printWaiters => some (s.setPc t (.debug ⟨held, target, printWaiters⟩ .load))
  | .setProt x => if held = some .writer then some { s with prot := x } else none

/-- What a thread does next: make a call, go on inside a call, or find a token
posted on its semaphore by somebody outside this system. -/
inductive Act (σ : Type) where
  | call (c : Call σ)
  | step (ch : Choice)
  | post

/-- One step of thread `t`; `none` if it cannot take that step. -/
def step (E : Env σ) (t : T) (a : Act σ) (s : State T σ) : Option (State T σ) :=
  match a with
  | .post => some (s.setWtr t (Waiter.post E))
  | .call c =>
      match s.pc t with
      | .client held => callStep s t held c
      | _ => none
  | .step ch =>
      match s.pc t with
      | .client _ => none
      | .lock m try_ k p => some (muLock s t m try_ k p)
      | .lockSlow l k p => muLockSlow s t l k p
      | .unlock kind k p => some (muUnlock s t kind k p)
      | .unlockSlow m k p => some (muUnlockSlow E s t m k p)
      | .muWait l p => muWaitWithDeadline E s t l ch p
      | .cvWait l p => cvWaitWithDeadline s t l ch p
      | .signal l p => some (cvSignal s t l p)
      | .wakeWaiters l p => some (wakeWaiters E s t l p)
      | .debug l p => some (debugState s t l p)
      | .panicked => none

/-- All words zero, all queues empty, every thread outside the library. -/
def initial (x : σ) : State T σ where
  word := 0#32
  waiters := []
  links := Links.singletons
  wtr := fun _ => ⟨false, 0#32, 0, false, .writer, none⟩
  cv := fun _ => ⟨0#32, []⟩
  prot := x
  pc := fun _ => .client none
  sect := x
  result := fun _ => .ok
  dequeued := fun _ => false

end Nsync.Mu
