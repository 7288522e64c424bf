import Nsync.Word
import Nsync.Lib.Links

/-!
# States of a mutex system

Any number of threads use one `nsync_mu` and any number of `nsync_cv`s whose
waits use that mutex.  A thread is described by a program counter that records
the function it is in and that function's local variables; the shared state is
the mutex word and queue, the words and queues of the condition variables, and
the `waiter` struct of each thread.  Program counters stand between two atomic
accesses of the source.
-/

namespace Nsync.Mu

open Nsync.Lib

/-- Addresses: of functions, of condition arguments, of condition variables. -/
abbrev Addr := ℕ

/-- A `wait_condition_s` whose function is not `NULL`. -/
structure WaitCondition where
  f : Addr
  v : Addr
  eq : Option Addr
  deriving DecidableEq, Repr

/-- What the library calls: `call f v x` is the client's `(*f) (v)` in protected
state `x`, `argEq e a b` is the client's `(*e) (a, b)`, and `semV` is the effect
of `nsync_mu_semaphore_v` on a count, which is `n + 1` for a counting semaphore
and `1` for a binary one. -/
structure Env (σ : Type) where
  call : Addr → Addr → σ → Bool
  argEq : Addr → Addr → Addr → Bool
  semV : ℕ → ℕ

def WaitCondition.holds {σ : Type} (E : Env σ) (c : WaitCondition) (x : σ) : Bool :=
  E.call c.f c.v x

/-- `WAIT_CONDITION_EQ`; `none` is a condition whose function is `NULL`. -/
def waitConditionEq {σ : Type} (E : Env σ) : Option WaitCondition → Option WaitCondition → Bool
  | some a, some b => a.f == b.f && (a.v == b.v ||
      match a.eq with
      | none => false
      | some e => E.argEq e a.v b.v)
  | _, _ => false

/-- The result of a wait on a semaphore: `0`, `ETIMEDOUT` or `ECANCELED`. -/
inductive Outcome where
  | ok
  | timedOut
  | canceled
  deriving DecidableEq, Repr

/-- The two places of a loop that loads a word and then tries to replace the
loaded value. -/
inductive LoadCas where
  | load
  | cas (old : Word)
  deriving DecidableEq, Repr

/-! ## Local variables and program counters -/

/-- Locals of `nsync_mu_lock_slow_`.  The variable `clear` is `0` or
`MU_DESIG_WAKER`, and `long_wait` is `0` or `MU_LONG_WAIT`. -/
structure LockSlow where
  lType : Mode
  clear : Bool
  waitCount : ℕ
  longWait : Bool
  deriving DecidableEq, Repr

/-- Locals of `nsync_mu_wait_with_deadline`.  The field `entry` is a history
variable: the mode in which the caller held the mutex.  The field `expires`
says whether a deadline or a note can end the wait. -/
structure MuWait where
  entry : Mode
  lType : Mode
  condition : Option WaitCondition
  expires : Bool
  firstWait : Bool
  removeCount : Word
  hadWaiters : Bool
  semOutcome : Outcome
  haveLock : Bool
  outcome : Outcome
  deriving DecidableEq, Repr

/-- Locals of `nsync_cv_wait_with_deadline_generic`; `entry` and `expires` as
in `MuWait`. -/
structure CvWait where
  entry : Mode
  pcv : Addr
  lType : Mode
  expires : Bool
  removeCount : Word
  semOutcome : Outcome
  outcome : Outcome
  deriving DecidableEq, Repr

/-- What a thread does after it has acquired the mutex. -/
inductive LockCont where
  | ret
  | muWait (l : MuWait)
  | cvWait (l : CvWait)
  deriving DecidableEq, Repr

/-- What a thread does after it has released the mutex. -/
inductive UnlockCont where
  | ret
  | muWait (l : MuWait)
  | cvWait (l : CvWait)
  deriving DecidableEq, Repr

/-- Places in `nsync_mu_lock`, `nsync_mu_trylock` and their reader versions. -/
inductive LockPc where
  | cas0
  | load
  | cas (old : Word)
  deriving DecidableEq, Repr

inductive LockSlowPc where
  | top
  | acquire (old : Word)
  | enqueue (old : Word)
  | insert
  | release (lc : LoadCas)
  | waitLoad
  | sem
  deriving DecidableEq, Repr

/-- The three calls that release a mutex. -/
inductive UnlockKind where
  | unlock
  | runlock
  | withoutWakeup
  deriving DecidableEq, Repr

inductive UnlockPc where
  | cas0
  | load
  | cas (old : Word)
  deriving DecidableEq, Repr

/-- Locals of the wake-up scan of `nsync_mu_unlock_slow_`.  The variable
`late_release_mu` is `0` or `MU_WLOCK`; `set_on_release` is kept as its two
possible bits. -/
structure Scan (T : Type) where
  testing : Bool
  late : Bool
  waiters : List T
  newWaiters : List T
  p : Option T
  wake : List T
  wakeType : Option Mode
  setWriterWaiting : Bool
  setAllFalse : Bool
  deriving DecidableEq, Repr

/-- What decides the last CAS of `nsync_mu_unlock_slow_`: `late_release_mu`,
the bits of `set_on_release`, whether waiters are left, and the waiters to wake. -/
structure Release (T : Type) where
  late : Bool
  setWriterWaiting : Bool
  setAllFalse : Bool
  noneLeft : Bool
  wake : List T
  deriving DecidableEq, Repr

inductive UnlockSlowPc (T : Type) where
  | top
  | fast (old : Word)
  | grab (old : Word)
  | scanRelease (sc : Scan T) (lc : LoadCas)
  | scan (sc : Scan T)
  | scanRemove (sc : Scan T) (x : T) (lc : LoadCas)
  | scanSpin (sc : Scan T) (lc : LoadCas)
  | final (r : Release T) (lc : LoadCas)
  | wakeStore (x : T) (wake : List T)
  | wakeSem (x : T) (wake : List T)
  deriving DecidableEq, Repr

inductive MuWaitPc where
  | loadWord
  | evalCondition
  | storeWaiting
  | loadRemoveCount
  | enqueue (lc : LoadCas)
  | release (lc : LoadCas)
  | waitLoad
  | sem
  | recheck
  | tryLoad
  | tryAcquire (old : Word)
  | trySetWriterWaiting (old : Word)
  | tryCheckWaiting (old : Word)
  | tryCheckCount (old : Word)
  | tryRemove (old : Word) (lc : LoadCas)
  | tryClearWaiting (old : Word)
  | tryStoreAcquired (old : Word)
  | tryStoreFailed (old : Word)
  | delay
  deriving DecidableEq, Repr

inductive CvWaitPc where
  | storeWaiting
  | loadMuWord
  | enqueue (lc : LoadCas)
  | loadRemoveCount (old : Word)
  | storeWord (old : Word)
  | waitLoad
  | sem
  | recheck
  | spin (lc : LoadCas)
  | checkWaiting (old : Word)
  | checkCount (old : Word)
  | remove (old : Word) (lc : LoadCas)
  | clearWaiting (old : Word)
  | releaseWord (old : Word)
  | delay
  deriving DecidableEq, Repr

/-- Locals of `nsync_cv_signal` and `nsync_cv_broadcast`; `held` is the mode in
which the caller holds the mutex, if any. -/
structure Signal (T : Type) where
  held : Option Mode
  pcv : Addr
  broadcast : Bool
  toWake : List T
  allReaders : Bool
  wokeWriter : Bool
  p : Option T
  deriving DecidableEq, Repr

inductive SignalPc (T : Type) where
  | loadWord
  | spin (lc : LoadCas)
  | removeFirst (old : Word) (x : T) (lc : LoadCas)
  | loop (old : Word)
  | remove (old : Word) (x : T) (lc : LoadCas)
  | storeWord (old : Word)
  deriving DecidableEq, Repr

/-- Places in `wake_waiters`. -/
inductive WakePc (T : Type) where
  | load
  | cas (old : Word)
  | release (setWriterWaiting : Bool) (lc : LoadCas)
  | store
  | sem (x : T)
  deriving DecidableEq, Repr

/-- Locals of `wake_waiters`. -/
structure Wake (T : Type) where
  held : Option Mode
  toWake : List T
  allReaders : Bool
  deriving DecidableEq, Repr

/-- Locals of `emit_mu_state` (`target = none`) and `emit_cv_state`. -/
structure Debug where
  held : Option Mode
  target : Option Addr
  printWaiters : Bool
  deriving DecidableEq, Repr

inductive DebugPc where
  | load
  | spin (lc : LoadCas)
  | store (word : Word)
  deriving DecidableEq, Repr

inductive Pc (T : Type) where
  | client (held : Option Mode)
  | lock (m : Mode) (try_ : Bool) (k : LockCont) (p : LockPc)
  | lockSlow (l : LockSlow) (k : LockCont) (p : LockSlowPc)
  | unlock (kind : UnlockKind) (k : UnlockCont) (p : UnlockPc)
  | unlockSlow (m : Mode) (k : UnlockCont) (p : UnlockSlowPc T)
  | muWait (l : MuWait) (p : MuWaitPc)
  | cvWait (l : CvWait) (p : CvWaitPc)
  | signal (l : Signal T) (p : SignalPc T)
  | wakeWaiters (l : Wake T) (p : WakePc T)
  | debug (l : Debug) (p : DebugPc)
  | panicked
  deriving DecidableEq, Repr

/-! ## Shared state -/

/-- The fields of a `waiter` struct, less its list links.  The field `cvMu`
says whether `cv_mu` is not `NULL`. -/
structure Waiter where
  waiting : Bool
  removeCount : Word
  sem : ℕ
  cvMu : Bool
  lType : Mode
  cond : Option WaitCondition
  deriving DecidableEq, Repr

/-- An `nsync_cv`. -/
structure Cv (T : Type) where
  word : Word
  waiters : List T

/-- The state of the system.  Each thread uses its own reserved waiter struct,
so waiters are named by their threads and a queue is a list of threads.  The
field `links` holds the `same_condition` links.  The last three fields are
history variables: `sect` is the protected state at the start of the current
write section, `result` is what each thread's last wait returned, and
`dequeued` says which threads were taken off the mutex queue by
`nsync_mu_unlock_slow_` and have since neither acquired the mutex nor begun to
queue themselves again. -/
structure State (T σ : Type) where
  word : Word
  waiters : List T
  links : Links T
  wtr : T → Waiter
  cv : Addr → Cv T
  prot : σ
  pc : T → Pc T
  sect : σ
  result : T → Outcome
  dequeued : T → Bool

end Nsync.Mu
