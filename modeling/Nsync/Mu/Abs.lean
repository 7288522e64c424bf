import Nsync.Mu.Written

/-!
# The protocol behind the code

What a thread does to the mutex is described by a few facts that can be read
off its program counter: the share of the lock it holds, why it holds the
spinlock, and how far it is in a wait.
-/

namespace Nsync.Mu

variable {T σ : Type}

/-- How far a thread is in a wait, as far as its waiter struct is concerned.  A
word is the remembered `remove_count`. -/
inductive Phase where
  /-- The waiter is not in use. -/
  | idle
  /-- The waiter is on no queue and its `waiting` flag is known. -/
  | off (waiting : Bool)
  /-- About to be queued by `nsync_mu_wait_with_deadline`. -/
  | armed (rc : Word)
  /-- Dequeued and woken; about to try again in `nsync_mu_lock_slow_`. -/
  | redo
  | slowWait
  | muWait (rc : Word)
  /-- Found still queued after a timeout, with spinlock and mutex held. -/
  | muMine
  | cvOff (waiting : Bool)
  | cvArmed
  | cvNew (c : Addr)
  | cvWait (c : Addr) (rc : Word)
  /-- Found still queued on the condition variable after a timeout. -/
  | cvMine (c : Addr)
  deriving DecidableEq

/-- Where a waiter struct is. -/
inductive Loc (T : Type) where
  | none
  /-- On the queue of the mutex. -/
  | muQ
  /-- On the private lists of a thread in `nsync_mu_unlock_slow_`. -/
  | priv (u : T)
  /-- On the wake list of a thread in `nsync_mu_unlock_slow_`. -/
  | wake (u : T)
  /-- Woken by `nsync_mu_unlock_slow_`, and not yet acquired or queued anew. -/
  | woken
  | cvQ (c : Addr)
  /-- On the `to_wake_list` of a signaller. -/
  | toWake (u : T)
  deriving DecidableEq

/-- Why a thread holds the spinlock of the mutex. -/
inductive SpinRole (T : Type) where
  | no
  | plain
  /-- To insert itself in `nsync_mu_lock_slow_`. -/
  | ins
  /-- For the last CAS of `nsync_mu_unlock_slow_`. -/
  | fin (r : Release T)
  /-- To move waiters to the mutex queue; the flag is what it is going to add to
  `MU_WRITER_WAITING`. -/
  | xfer (setWriterWaiting : Bool)
  /-- After a timeout, together with the mutex; it remembers the word. -/
  | hold (old : Word)
  /-- For debugging output; it remembers the word. -/
  | dbg (word : Word)
  deriving DecidableEq

/-- Which spinlock of a condition variable a thread holds. -/
inductive CvRole where
  | no
  | held (c : Addr)
  | dbg (c : Addr) (word : Word)
  deriving DecidableEq

def CvRole.addr : CvRole → Option Addr
  | .no => none
  | .held c => some c
  | .dbg c _ => some c

@[simp] theorem CvRole.addr_no : CvRole.addr .no = none := rfl
@[simp] theorem CvRole.addr_held (c : Addr) : CvRole.addr (.held c) = some c := rfl
@[simp] theorem CvRole.addr_dbg (c : Addr) (w : Word) : CvRole.addr (.dbg c w) = some c := rfl

namespace Pc

/-- The share of the lock that a thread holds. -/
def lockRole : Pc T → Option Mode
  | .client held => held
  | .lock .. => none
  | .lockSlow .. => none
  | .unlock kind _ _ => some kind.mode
  | .unlockSlow m _ p =>
      match p with
      | .top | .fast _ | .grab _ => some m
      -- a thread that tests conditions has turned its share into a write lock
      | .scanRelease sc _ | .scan sc | .scanRemove sc _ _ | .scanSpin sc _ =>
          if sc.late then some .writer else none
      | .final r _ => if r.late then some .writer else none
      | .wakeStore _ _ | .wakeSem _ _ => none
  | .muWait l p =>
      match p with
      | .loadWord => some l.entry
      | .evalCondition | .storeWaiting | .loadRemoveCount | .enqueue _ | .release _ => some l.lType
      | .waitLoad | .delay => if l.haveLock then some l.lType else none
      | .sem | .recheck | .tryLoad | .tryAcquire _ | .trySetWriterWaiting _ => none
      -- the section of `mu_try_acquire_after_timeout_or_cancel` with both locks
      | .tryCheckWaiting _ | .tryCheckCount _ | .tryRemove _ _ | .tryClearWaiting _
      | .tryStoreAcquired _ | .tryStoreFailed _ => some .writer
  | .cvWait l p =>
      match p with
      | .storeWaiting | .loadMuWord => some l.entry
      | .enqueue _ | .loadRemoveCount _ | .storeWord _ => some l.lType
      | _ => none
  | .signal l _ => l.held
  | .wakeWaiters l _ => l.held
  | .debug l _ => l.held
  | .panicked => none

def spinRole : Pc T → SpinRole T
  | .lockSlow _ _ p =>
      match p with
      | .insert => .ins
      | .release _ => .plain
      | _ => .no
  | .unlockSlow _ _ p =>
      match p with
      | .scanRelease _ _ => .plain
      | .scan sc | .scanRemove sc _ _ => if sc.testing then .no else .plain
      | .final r _ => .fin r
      | _ => .no
  | .muWait _ p =>
      match p with
      | .release _ => .plain
      | .tryCheckWaiting old | .tryCheckCount old | .tryRemove old _ | .tryClearWaiting old
      | .tryStoreAcquired old | .tryStoreFailed old => .hold old
      | _ => .no
  | .wakeWaiters _ p =>
      match p with
      | .release b _ => .xfer b
      | _ => .no
  | .debug l p =>
      match l.target, p with
      | Option.none, .store w => .dbg w
      | _, _ => .no
  | _ => .no

end Pc

def UnlockCont.phase : UnlockCont → Phase
  | .ret => .idle
  | .muWait l => .muWait l.removeCount
  | .cvWait l => .cvWait l.pcv l.removeCount

namespace Pc

def phase : Pc T → Phase
  | .lockSlow l _ p =>
      match p with
      | .top | .acquire _ | .enqueue _ => if l.clear then .redo else .idle
      | .insert => .idle
      | .release _ | .waitLoad | .sem => .slowWait
  | .unlock _ k _ => k.phase
  | .unlockSlow _ k _ => k.phase
  | .muWait l p =>
      match p with
      | .loadWord | .evalCondition | .storeWaiting => .idle
      | .loadRemoveCount => .off true
      | .enqueue _ => .armed l.removeCount
      | .waitLoad | .delay => if l.haveLock then .off false else .muWait l.removeCount
      | .release _ | .sem | .recheck | .tryLoad | .tryAcquire _ | .trySetWriterWaiting _
      | .tryCheckWaiting _ | .tryCheckCount _ | .tryStoreFailed _ => .muWait l.removeCount
      | .tryRemove _ _ => .muMine
      | .tryClearWaiting _ => .off true
      | .tryStoreAcquired _ => .off false
  | .cvWait l p =>
      match p with
      | .storeWaiting => .idle
      | .loadMuWord => .cvOff true
      | .enqueue _ => .cvArmed
      | .loadRemoveCount _ => .cvNew l.pcv
      | .storeWord _ | .sem | .recheck | .spin _ | .checkWaiting _ | .checkCount _ =>
          .cvWait l.pcv l.removeCount
      | .remove _ _ => .cvMine l.pcv
      | .clearWaiting _ => .cvOff true
      | .waitLoad | .delay | .releaseWord _ =>
          if l.outcome = .ok then .cvWait l.pcv l.removeCount else .cvOff false
  | _ => .idle

/-- Between the spinlock-taking CAS and the last CAS of `nsync_mu_unlock_slow_`. -/
def region : Pc T → Bool
  | .unlockSlow _ _ p =>
      match p with
      | .scanRelease _ _ | .scan _ | .scanRemove _ _ _ | .scanSpin _ _ | .final _ _ => true
      | _ => false
  | _ => false

/-- Inside `mu_try_acquire_after_timeout_or_cancel`. -/
def trying : Pc T → Bool
  | .muWait _ p =>
      match p with
      | .tryLoad | .tryAcquire _ | .trySetWriterWaiting _ | .tryCheckWaiting _ | .tryCheckCount _
      | .tryRemove _ _ | .tryClearWaiting _ | .tryStoreAcquired _ | .tryStoreFailed _ => true
      | _ => false
  | _ => false

/-- A thread in `nsync_mu_lock_slow_` whose `long_wait` is set. -/
def longWaiter : Pc T → Bool
  | .lockSlow l _ _ => l.longWait
  | _ => false

def cvRole : Pc T → CvRole
  | .cvWait l p =>
      match p with
      | .loadRemoveCount _ | .storeWord _ | .checkWaiting _ | .checkCount _ | .remove _ _
      | .clearWaiting _ | .releaseWord _ => .held l.pcv
      | _ => .no
  | .signal l p =>
      match p with
      | .removeFirst _ _ _ | .loop _ | .remove _ _ _ | .storeWord _ => .held l.pcv
      | _ => .no
  | .debug l p =>
      match l.target, p with
      | some c, .store w => .dbg c w
      | _, _ => .no
  | _ => .no

/-- The waiter that a signaller is about to look at or to remove. -/
def target : Pc T → Option T
  | .signal l p =>
      match p with
      | .removeFirst _ x _ | .remove _ x _ => some x
      | .loop _ => l.p
      | _ => none
  | _ => none

/-- The scan that a thread in `nsync_mu_unlock_slow_` is in. -/
def scan? : Pc T → Option (Scan T)
  | .unlockSlow _ _ p =>
      match p with
      | .scanRelease sc _ | .scan sc | .scanRemove sc _ _ | .scanSpin sc _ => some sc
      | _ => none
  | _ => none

/-- The waiters that a scan has dealt with in earlier rounds. -/
def scanOld (p : Pc T) : List T := p.scan?.elim [] Scan.waiters

/-- The waiters of the current round of a scan. -/
def scanNew (p : Pc T) : List T := p.scan?.elim [] Scan.newWaiters

/-- The private lists of a thread in `nsync_mu_unlock_slow_`. -/
def priv (p : Pc T) : List T := p.scanOld ++ p.scanNew

/-- The wake list of a thread in `nsync_mu_unlock_slow_`. -/
def wake : Pc T → List T
  | .unlockSlow _ _ p =>
      match p with
      | .scanRelease sc _ | .scan sc | .scanRemove sc _ _ | .scanSpin sc _ => sc.wake
      | .final r _ => r.wake
      | .wakeStore x wake => x :: wake
      | .wakeSem _ wake => wake
      | _ => []
  | _ => []

/-- The `to_wake_list` of a signaller. -/
def toWake : Pc T → List T
  | .signal l _ => l.toWake
  | .wakeWaiters l _ => l.toWake
  | _ => []

end Pc

/-- What the protocol knows about a thread. -/
@[ext] structure Abs (T : Type) where
  lock : Option Mode
  spin : SpinRole T
  phase : Phase
  region : Bool
  trying : Bool
  longWaiter : Bool
  cv : CvRole

def Pc.abs (p : Pc T) : Abs T where
  lock := p.lockRole
  spin := p.spinRole
  phase := p.phase
  region := p.region
  trying := p.trying
  longWaiter := p.longWaiter
  cv := p.cvRole

end Nsync.Mu
