import Nsync.Mu.Abs

/-!
# The protocol as a transition system

A protocol state consists of the fields of the mutex word, the role of every
thread, and the place and contents of every waiter struct.  Lists and program
counters are gone: a step says which roles, places and fields change.
-/

namespace Nsync.Mu

variable {T σ : Type} [DecidableEq T]

@[ext] structure AState (T σ : Type) where
  v : View
  th : T → Abs T
  loc : T → Loc T
  wtr : T → Waiter
  deq : T → Bool
  cvw : Addr → Word
  prot : σ
  sect : σ

namespace AState

@[simp] def setTh (a : AState T σ) (t : T) (b : Abs T) : AState T σ :=
  { a with th := Function.update a.th t b }

@[simp] def setLoc (a : AState T σ) (x : T) (l : Loc T) : AState T σ :=
  { a with loc := Function.update a.loc x l }

@[simp] def setWtr (a : AState T σ) (x : T) (w : Waiter) : AState T σ :=
  { a with wtr := Function.update a.wtr x w }

@[simp] def setDeq (a : AState T σ) (x : T) (b : Bool) : AState T σ :=
  { a with deq := Function.update a.deq x b }

@[simp] def setCvw (a : AState T σ) (c : Addr) (w : Word) : AState T σ :=
  { a with cvw := Function.update a.cvw c w }

@[simp] def setV (a : AState T σ) (v : View) : AState T σ := { a with v := v }

/-- Thread `t` has acquired in mode `m`. -/
@[simp] def gain (a : AState T σ) (t : T) (m : Mode) : AState T σ :=
  { a.setDeq t false with
    sect := match m with
      | .writer => a.prot
      | .reader => a.sect }

/-- Thread `t` takes the mutex queue for itself. -/
@[simp] def pick (a : AState T σ) (t : T) : AState T σ :=
  { a with loc := fun x => if a.loc x = .muQ then .priv t else a.loc x }

/-- Thread `t` returns what is left on its private lists. -/
@[simp] def giveBack (a : AState T σ) (t : T) : AState T σ :=
  { a with loc := fun x => if a.loc x = .priv t then .muQ else a.loc x }

/-- The listed waiters move to the mutex queue. -/
@[simp] def move (a : AState T σ) (xs : List T) : AState T σ :=
  { a with
    loc := fun x => if x ∈ xs then .muQ else a.loc x
    wtr := fun x => if x ∈ xs then { a.wtr x with cvMu := false } else a.wtr x }

/-- Thread `t` takes the spinlock and converts or gives up its share. -/
@[simp] def grab (a : AState T σ) (t : T) (m : Mode) (testing : Bool) : AState T σ :=
  (a.setV (a.v.grab m testing)).setTh t
    { a.th t with
      lock := if testing then some .writer else none
      spin := .plain
      region := true }

@[simp] def retakeSpin (a : AState T σ) (t : T) : AState T σ :=
  (a.setV a.v.takeSpin).setTh t { a.th t with spin := .plain }

end AState

/-! ## Consistency of a waiter with its thread -/

namespace Loc

/-- On the queue of the mutex, or taken from there by a scanning unlocker. -/
def Queued (l : Loc T) : Prop := l = .muQ ∨ ∃ u, l = .priv u

/-- On a wake list, or woken. -/
def Dequeued (l : Loc T) : Prop := (∃ u, l = .wake u) ∨ l = .woken

/-- Not listed anywhere. -/
def Free (l : Loc T) : Prop := l = .none ∨ l = .woken

end Loc

/-- Where the waiter of a thread can be, and what its fields can be, in a phase. -/
def Compat (l : Loc T) (w : Waiter) : Phase → Prop
  | .idle => l = .none
  | .off b => l = .none ∧ w.waiting = b
  | .armed rc => l = .none ∧ w.waiting = true ∧ w.removeCount = rc
  | .redo => l = .woken
  | .slowWait =>
      ((l.Queued ∨ ∃ u, l = .wake u) ∧ w.waiting = true) ∨ (l = .woken ∧ w.waiting = false)
  | .muWait rc =>
      (l.Queued ∧ w.waiting = true ∧ w.removeCount = rc) ∨
      ((∃ u, l = .wake u) ∧ w.waiting = true ∧ w.removeCount = rc + 1#32) ∨
      (l = .woken ∧ w.waiting = false ∧ w.removeCount = rc + 1#32)
  | .muMine => l = .muQ ∧ w.waiting = true
  | .cvOff b => l = .none ∧ w.waiting = b ∧ w.cvMu = true
  | .cvArmed => l = .none ∧ w.waiting = true ∧ w.cvMu = true
  | .cvNew c => l = .cvQ c ∧ w.waiting = true ∧ w.cvMu = true
  | .cvWait c rc =>
      (l = .cvQ c ∧ w.waiting = true ∧ w.cvMu = true ∧ w.removeCount = rc) ∨
      ((∃ u, l = .toWake u) ∧ w.waiting = true ∧ w.cvMu = true ∧ w.removeCount = rc + 1#32) ∨
      (l = .none ∧ w.waiting = false ∧ w.cvMu = true ∧ w.removeCount = rc + 1#32) ∨
      (l.Queued ∧ w.waiting = true ∧ w.cvMu = false ∧ w.removeCount = rc + 1#32) ∨
      ((∃ u, l = .wake u) ∧ w.waiting = true ∧ w.cvMu = false ∧
        w.removeCount = rc + 1#32 + 1#32) ∨
      (l = .woken ∧ w.waiting = false ∧ w.cvMu = false ∧ w.removeCount = rc + 1#32 + 1#32)
  | .cvMine c => l = .cvQ c ∧ w.waiting = true ∧ w.cvMu = true

/-! ## Steps -/

/-- On the conditions in `C`, those that the client declares equal are true at
the same time. -/
def EqSound (E : Env σ) (C : WaitCondition → Prop) : Prop :=
  ∀ c d, C c → C d → waitConditionEq E (some c) (some d) = true →
    ∀ x, c.holds E x = d.holds E x

/-- What a thread knows before the last CAS of `nsync_mu_unlock_slow_`. -/
structure FinOk (E : Env σ) (C : WaitCondition → Prop) (a : AState T σ) (t : T)
    (r : Release T) : Prop where
  lock : (a.th t).lock = if r.late then some .writer else none
  writer : r.setWriterWaiting = true → ∃ x, a.loc x = .muQ ∧ (a.wtr x).lType = .writer
  noneLeft : r.noneLeft = true ↔ ∀ x, a.loc x ≠ .muQ
  allFalse : r.setAllFalse = true → ∀ x, a.loc x = .muQ →
    ∃ c, (a.wtr x).cond = some c ∧ (EqSound E C → c.holds E a.prot = false)
  noCond : r.late = false → ∀ x, a.loc x = .muQ → (a.wtr x).cond = none
  wake : r.wake = [] ↔ ∀ x, a.loc x ≠ .wake t
  woke : r.wake = [] → r.setAllFalse = true

/-- The head of the outer loop of `nsync_mu_unlock_slow_`: take the waiters that
have arrived, or return those that are left. -/
inductive Pick (E : Env σ) (C : WaitCondition → Prop) (t : T) :
    AState T σ → AState T σ → Prop where
  | pick {a : AState T σ} (hr : (a.th t).region = true) (hs : (a.th t).spin = .plain) :
      Pick E C t a (a.pick t)
  | giveBack {a : AState T σ} (r : Release T) (hr : (a.th t).region = true)
      (hs : (a.th t).spin = .plain) (hq : ∀ x, a.loc x ≠ .muQ)
      (hf : FinOk E C (a.giveBack t) t r) :
      Pick E C t a ((a.giveBack t).setTh t { a.th t with spin := .fin r })

/-- One step of thread `t`. -/
inductive AStep (E : Env σ) (C : WaitCondition → Prop) (t : T) :
    AState T σ → AState T σ → Prop where
  | stutter {a : AState T σ} : AStep E C t a a
  /-- Only the thread's own waiter and its progress change. -/
  | own {a : AState T σ} (p : Phase) (tr lw : Bool) (w : Waiter)
      (hc : Compat (a.loc t) w p)
      (hmine : p = .muMine → ∃ old, (a.th t).spin = .hold old)
      (hnew : ∀ c, p = .cvNew c ∨ p = .cvMine c → (a.th t).cv.addr = some c)
      (hcond : (a.loc t).Free ∨ w.cond = (a.wtr t).cond)
      (htype : a.loc t = .none ∨ w.lType = (a.wtr t).lType)
      (hC : ∀ c, w.cond = some c → C c)
      (htr : (a.th t).trying = true → tr = true)
      (hlw : (a.th t).longWaiter = true → lw = true)
      (hphase : lw = true → p = .redo ∨ p = .slowWait)
      (hins : (a.th t).spin ≠ .ins) :
      AStep E C t a ((a.setTh t { a.th t with phase := p, trying := tr, longWaiter := lw }).setWtr
        t w)
  | acquire {a : AState T σ} (m : Mode) (clear : Bool)
      (hl : (a.th t).lock = none) (hs : (a.th t).spin = .no)
      (hp : (a.th t).phase = if clear then .redo else .idle)
      (hv : a.v.CanAcquire m clear) (htype : clear = true → (a.wtr t).lType = m) :
      AStep E C t a (((a.setV (a.v.acquire m clear (a.th t).longWaiter)).gain t m).setLoc t
        .none |>.setTh t { a.th t with lock := some m, phase := .idle, longWaiter := false })
  /-- A thread in `nsync_mu_lock_slow_` takes the spinlock. -/
  | enqueue {a : AState T σ} (m : Mode) (clear : Bool)
      (hl : (a.th t).lock = none) (hs : (a.th t).spin = .no)
      (hp : (a.th t).phase = if clear then .redo else .idle)
      (hv : ¬ a.v.CanAcquire m clear) (hspin : a.v.spin = false)
      (htype : (a.wtr t).lType = m) :
      AStep E C t a (((a.setV (a.v.enqueue m clear (a.th t).longWaiter)).setDeq t false).setLoc t
        .none |>.setTh t { a.th t with spin := .ins, phase := .idle })
  | insert {a : AState T σ} (hs : (a.th t).spin = .ins) (hp : (a.th t).phase = .idle)
      (hcond : (a.wtr t).cond = none) :
      AStep E C t a (((a.setWtr t (Waiter.setWaiting true (a.wtr t))).setLoc t .muQ).setTh t
        { a.th t with spin := .plain, phase := .slowWait })
  | releaseSpin {a : AState T σ} (hs : (a.th t).spin = .plain)
      (hr : (a.th t).region = true → (a.th t).lock = some .writer) :
      AStep E C t a ((a.setV a.v.releaseSpin).setTh t { a.th t with spin := .no })
  | release {a : AState T σ} (m : Mode) (clearAllFalse : Bool)
      (hl : (a.th t).lock = some m) (hs : (a.th t).spin = .no)
      (hr : (a.th t).region = false) (hv : a.v.Unneeded m clearAllFalse) :
      AStep E C t a ((a.setV (a.v.releaseShare m clearAllFalse)).setTh t
        { a.th t with lock := none })
  | grab {a a' : AState T σ} (m : Mode) (testing : Bool)
      (hl : (a.th t).lock = some m) (hs : (a.th t).spin = .no)
      (hr : (a.th t).region = false) (hspin : a.v.spin = false)
      (hv : ¬ a.v.NoWakeup) (ht : testing = a.v.cond)
      (hp : Pick E C t (a.grab t m testing) a') : AStep E C t a a'
  | retake {a a' : AState T σ} (hs : (a.th t).spin = .no) (hr : (a.th t).region = true)
      (hspin : a.v.spin = false) (hp : Pick E C t (a.retakeSpin t) a') : AStep E C t a a'
  | next {a a' : AState T σ} (hp : Pick E C t a a') : AStep E C t a a'
  | dequeue {a : AState T σ} (x : T) (hr : (a.th t).region = true) (hx : a.loc x = .priv t) :
      AStep E C t a (((a.setWtr x (Waiter.removed (a.wtr x))).setLoc x (.wake t)).setDeq x true)
  | final {a : AState T σ} (r : Release T) (hs : (a.th t).spin = .fin r) :
      AStep E C t a ((a.setV (a.v.final r.late r.setWriterWaiting r.setAllFalse r.noneLeft
        r.wake.isEmpty)).setTh t { a.th t with lock := none, spin := .no, region := false })
  | wake {a : AState T σ} (x : T) (hs : (a.th t).spin = .no) (hx : a.loc x = .wake t) :
      AStep E C t a ((a.setWtr x (Waiter.setWaiting false (a.wtr x))).setLoc x .woken)
  /-- `nsync_mu_wait_with_deadline` queues the thread. -/
  | muEnqueue {a : AState T σ} (rc : Word) (hp : (a.th t).phase = .armed rc)
      (hs : (a.th t).spin = .no) (hr : (a.th t).region = false) (hspin : a.v.spin = false) :
      AStep E C t a (((a.setV (a.v.muWaitEnqueue (a.wtr t).cond.isSome)).setDeq t false).setLoc t
        .muQ |>.setTh t { a.th t with spin := .plain, phase := .muWait rc })
  /-- `nsync_mu_wait_with_deadline` releases mutex and spinlock together. -/
  | muRelease {a : AState T σ} (m : Mode) (hl : (a.th t).lock = some m)
      (hs : (a.th t).spin = .plain) (hr : (a.th t).region = false) :
      AStep E C t a ((a.setV (a.v.dropShare m).releaseSpin).setTh t
        { a.th t with lock := none, spin := .no })
  | tryAcquire {a : AState T σ} (old : Word) (hl : (a.th t).lock = none)
      (hs : (a.th t).spin = .no) (htr : (a.th t).trying = true) (hv : a.v = view old)
      (hw : a.v.wlock = false) (hn : a.v.readers = 0) (hlw : a.v.longWait = false)
      (hspin : a.v.spin = false) :
      AStep E C t a ((a.setV a.v.tryAcquire).setTh t
        { a.th t with lock := some .writer, spin := .hold old })
  | setWriterWaiting {a : AState T σ} (htr : (a.th t).trying = true) (hspin : a.v.spin = false) :
      AStep E C t a (a.setV { a.v with writerWaiting := true })
  | removeSelf {a : AState T σ} (hp : (a.th t).phase = .muMine) :
      AStep E C t a (((a.setWtr t (Waiter.removed (a.wtr t))).setLoc t .none).setTh t
        { a.th t with phase := .off true })
  | tryDone {a : AState T σ} (m : Mode) (old : Word) (hs : (a.th t).spin = .hold old)
      (hp : (a.th t).phase = .off false) (hr : (a.th t).region = false) :
      AStep E C t a ((a.setV ((view old).addShare m)).gain t m |>.setTh t
        { a.th t with lock := some m, spin := .no, trying := false })
  | tryFail {a : AState T σ} (old : Word) (hs : (a.th t).spin = .hold old)
      (hp : (a.th t).phase ≠ .muMine) (hr : (a.th t).region = false) :
      AStep E C t a ((a.setV (view old)).setTh t
        { a.th t with lock := none, spin := .no, trying := false })
  | cvEnqueue {a : AState T σ} (c : Addr) (w : Word) (hp : (a.th t).phase = .cvArmed)
      (hcv : (a.th t).cv = .no) (hfree : (a.cvw c).getLsbD 0 = false) (hw : w.getLsbD 0 = true) :
      AStep E C t a ((a.setCvw c w).setLoc t (.cvQ c) |>.setTh t
        { a.th t with cv := .held c, phase := .cvNew c })
  | cvTake {a : AState T σ} (c : Addr) (r : CvRole) (w : Word)
      (hcv : (a.th t).cv = .no) (hfree : (a.cvw c).getLsbD 0 = false) (hw : w.getLsbD 0 = true)
      (hr : r = .held c ∨ (r = .dbg c (a.cvw c) ∧ w = a.cvw c ||| cvSpinlock)) :
      AStep E C t a ((a.setCvw c w).setTh t { a.th t with cv := r })
  | cvRelease {a : AState T σ} (c : Addr) (w : Word) (hcv : (a.th t).cv.addr = some c)
      (hw : w.getLsbD 0 = false) (hp : ∀ d, (a.th t).phase ≠ .cvNew d ∧ (a.th t).phase ≠ .cvMine d) :
      AStep E C t a ((a.setCvw c w).setTh t { a.th t with cv := .no })
  | cvRemove {a : AState T σ} (c : Addr) (hp : (a.th t).phase = .cvMine c) :
      AStep E C t a (((a.setWtr t (Waiter.removed (a.wtr t))).setLoc t .none).setTh t
        { a.th t with phase := .cvOff true })
  /-- A signaller takes a waiter off the queue of a condition variable. -/
  | select {a : AState T σ} (c : Addr) (x : T) (hcv : (a.th t).cv = .held c)
      (hx : a.loc x = .cvQ c)
      (hp : ∀ d, (a.th t).phase ≠ .cvNew d ∧ (a.th t).phase ≠ .cvMine d) :
      AStep E C t a ((a.setWtr x (Waiter.removed (a.wtr x))).setLoc x (.toWake t))
  /-- A signaller moves waiters to the mutex queue. -/
  | transfer {a : AState T σ} (xs : List T) (b : Bool) (hs : (a.th t).spin = .no)
      (hr : (a.th t).region = false) (hspin : a.v.spin = false)
      (hheld : a.v.wlock = true ∨ a.v.readers ≠ 0)
      (hxs : ∀ x ∈ xs, a.loc x = .toWake t ∧ (a.wtr x).cond = none)
      (hb : b = true → ∃ x ∈ xs, (a.wtr x).lType = .writer) :
      AStep E C t a (((a.setV a.v.transfer).move xs).setTh t { a.th t with spin := .xfer b })
  | transferRelease {a : AState T σ} (b : Bool) (hs : (a.th t).spin = .xfer b)
      (hr : (a.th t).region = false) :
      AStep E C t a ((a.setV (a.v.transferRelease b)).setTh t { a.th t with spin := .no })
  | cvWake {a : AState T σ} (x : T) (hx : a.loc x = .toWake t) :
      AStep E C t a ((a.setWtr x (Waiter.setWaiting false (a.wtr x))).setLoc x .none)
  /-- A client that holds the write lock changes the protected state. -/
  | mutate {a : AState T σ} (y : σ) (hl : (a.th t).lock = some .writer)
      (hs : (a.th t).spin = .no) (hr : (a.th t).region = false) :
      AStep E C t a { a with prot := y }
  | dbgTake {a : AState T σ} (w : Word) (hs : (a.th t).spin = .no)
      (hr : (a.th t).region = false) (hv : a.v = view w) (hspin : a.v.spin = false) :
      AStep E C t a ((a.setV a.v.takeSpin).setTh t { a.th t with spin := .dbg w })
  | dbgStore {a : AState T σ} (w : Word) (hs : (a.th t).spin = .dbg w)
      (hr : (a.th t).region = false) :
      AStep E C t a ((a.setV (view w)).setTh t { a.th t with spin := .no })

end Nsync.Mu
