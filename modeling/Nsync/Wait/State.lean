import Nsync.Word
import Nsync.Lib.Run

/-!
# Notes, counters and waits: the state

The state that the calls of `internal/note.c`, `internal/counter.c`,
`internal/sem_wait.c` and `internal/wait.c` share, and the places inside these
calls.  Notes, counters and `nsync_waiter_s` records are named by numbers.  A note
and a record get a new number each, so that a number that was freed is not used
again.  The mutexes of notes and counters are plain locks with one owner, and a
doubly linked list is the list of its elements.
-/

namespace Nsync.Wait

/-! ## Shared data -/

/-- A `struct nsync_note_s_`.  The last field is a history variable: whether the note
has been passed to `free`. -/
structure Note (T τ : Type) where
  expiryTimeValid : Bool
  expiryTime : τ
  noteMu : Option T
  disconnecting : ℕ
  notified : Bool
  parent : Option ℕ
  children : List ℕ
  waiters : List ℕ
  freed : Bool

/-- A `struct nsync_counter_s_`. -/
structure Counter (T : Type) where
  waited : Bool
  counterMu : Option T
  value : Word
  waiters : List ℕ

/-- A `struct nsync_waiter_s`; `sem` is the semaphore of the waiter of a thread.  The
last field is a history variable: the posts made for the record since it was
queued. -/
structure Nw (T : Type) where
  waiting : Bool
  sem : Option T
  posts : ℕ

section

variable {T τ : Type} [Zero τ] [Top τ]

/-- `NOTIFIED_TIME` -/
def Note.notifiedTime (x : Note T τ) : τ :=
  if x.notified then 0 else if x.expiryTimeValid then x.expiryTime else ⊤

end

/-- What `nsync_wait_n` can wait for here. -/
inductive Waitable where
  | note (n : ℕ)
  | counter (c : ℕ)
  deriving DecidableEq, Repr

/-! ## Places in the calls -/

/-- Places in `note_notify_child`. -/
inductive ChildPc where
  | test
  | store
  | wake
  | clear (nw : ℕ)
  | post (nw : ℕ)
  | loop (p : Option ℕ)
  | lockChild (child : ℕ) (next : Option ℕ)
  | check (child : ℕ) (next : Option ℕ)
  | called (child : ℕ) (next : Option ℕ)
  | unlockChild (child : ℕ) (next : Option ℕ)
  | wait
  | waiting
  | detach
  | done
  deriving DecidableEq, Repr

/-- Places in `notify`. -/
inductive NotifyPc where
  | lock
  | test
  | incr
  | tryParent (parent : ℕ)
  | unlockSelf (parent : ℕ)
  | lockParent (parent : ℕ)
  | relockSelf (parent : ℕ)
  | call (parent : Option ℕ)
  | called (parent : Option ℕ)
  | unlockParent (parent : ℕ)
  | decr
  | unlock
  | done
  deriving DecidableEq, Repr

/-- Places in `nsync_note_notified_deadline_`. -/
inductive DeadlinePc (τ : Type) where
  | load
  | lock
  | read
  | unlock (ntime : τ)
  | check (ntime : τ)
  | called
  | result (ntime : τ)
  deriving DecidableEq, Repr

/-- Places in `nsync_note_is_notified`. -/
inductive IsNotifiedPc where
  | call
  | called
  | result (b : Bool)
  deriving DecidableEq, Repr

/-- Places in `nsync_note_notify`. -/
inductive NoteNotifyPc where
  | call
  | called
  | notify
  | notifyCalled
  | done
  deriving DecidableEq, Repr

/-- Places in `nsync_note_new`. -/
inductive NewPc where
  | malloc
  | call (n : ℕ)
  | called (n : ℕ)
  | lockParent (n : ℕ)
  | link (n : ℕ)
  | unlockParent (n : ℕ)
  | result (n : Option ℕ)
  deriving DecidableEq, Repr

/-- Places in `nsync_note_free`. -/
inductive FreePc where
  | lock
  | incr
  | tryParent (parent : ℕ)
  | unlockSelf (parent : ℕ)
  | lockParent (parent : ℕ)
  | relockSelf (parent : ℕ)
  | first (parent : Option ℕ)
  | loop (parent p : Option ℕ)
  | lockChild (parent : Option ℕ) (child : ℕ) (next : Option ℕ)
  | adopt (parent : Option ℕ) (child : ℕ) (next : Option ℕ)
  | unlockChild (parent : Option ℕ) (child : ℕ) (next : Option ℕ)
  | wait (parent : Option ℕ)
  | waiting (parent : Option ℕ)
  | detach (parent : Option ℕ)
  | unlockParent (parent : ℕ)
  | decr
  | unlock
  | free
  | done
  deriving DecidableEq, Repr

/-- Places in `nsync_counter_add`; `old` is the value that the CAS replaces. -/
inductive AddPc where
  | lock
  | load
  | cas (old : Word)
  | check (old : Word)
  | wake (old : Word)
  | clear (old : Word) (nw : ℕ)
  | post (old : Word) (nw : ℕ)
  | unlock (old : Word)
  | result (value : Word)
  deriving DecidableEq, Repr

/-- Places in `counter_ready_time`. -/
inductive ReadyPc (τ : Type) where
  | store
  | load
  | result (r : τ)
  deriving DecidableEq, Repr

/-- Places in `note_enqueue` and `counter_enqueue`. -/
inductive EnqueuePc where
  | lock
  | link
  | unlock (waiting : Bool)
  | result (waiting : Bool)
  deriving DecidableEq, Repr

/-- What a call of a dequeue function found: its result, and as history whether the
record was on the list and whether the object was ready when the critical section
began. -/
structure Dequeued where
  wasQueued : Bool
  onList : Bool
  ready : Bool
  deriving DecidableEq, Repr

/-- Places in `note_dequeue` and `counter_dequeue`. -/
inductive DequeuePc where
  | call
  | called
  | lock
  | unlink
  | unlock (d : Dequeued)
  | result (d : Dequeued)
  deriving DecidableEq, Repr

inductive SemOutcome where
  | ok
  | timedOut
  | cancelled
  deriving DecidableEq, Repr

/-- Places in `nsync_sem_wait_with_cancel_`.  As history, `slept` says how the wait on
the semaphore ended, if there was one. -/
inductive SemPc (τ : Type) where
  | start
  | sleepOnly
  | called
  | init
  | lock (nw : ℕ)
  | link (nw : ℕ)
  | unlockSleep (nw : ℕ) (localDeadline : τ) (nearer : Bool)
  | sleep (nw : ℕ) (localDeadline : τ) (nearer : Bool)
  | notifyCalled (nw : ℕ)
  | relock (nw : ℕ) (outcome slept : SemOutcome)
  | unlink (nw : ℕ) (outcome slept : SemOutcome)
  | unlock (nw : ℕ) (outcome : SemOutcome) (slept : Option SemOutcome)
  | result (outcome : SemOutcome) (slept : Option SemOutcome)
  deriving DecidableEq, Repr

/-- Calls of the functions `unlock` and `lock` that were passed to `nsync_wait_n`. -/
inductive MuCall where
  | unlock
  | lock
  deriving DecidableEq, Repr

/-- The arguments and locals of `nsync_wait_n`.  The records `nw[0..]` are numbered from
`nw` on.  The last four fields are history variables: whether the records were
allocated, the time at which the wait on the semaphore timed out, what the calls of
`dequeue` found, and the calls of `unlock` and `lock`. -/
structure WaitN (τ : Type) where
  mu : Bool
  absDeadline : τ
  waitable : List Waitable
  ready : ℕ
  nw : ℕ
  i : ℕ
  unlocked : Bool
  queueing : Bool
  timedOut : Option τ
  log : List Dequeued
  muCalls : List MuCall
  deriving DecidableEq, Repr

/-- Places in `nsync_wait_n`. -/
inductive WaitPc (τ : Type) where
  | first
  | firstCalled
  | alloc
  | enqueue
  | enqueueCalled
  | unlockMu
  | scan (j : ℕ) (minNtime : τ)
  | scanCalled (j : ℕ) (minNtime : τ)
  | sleep (minNtime : τ)
  | dequeue (j : ℕ)
  | dequeueCalled (j : ℕ)
  | lockMu
  | result
  deriving DecidableEq, Repr

/-- A call in progress, with its arguments.  As history, `since` is the time of the
call. -/
inductive Frame (τ : Type) where
  | notifyChild (n : ℕ) (parent : Option ℕ) (p : ChildPc)
  | notify (n : ℕ) (p : NotifyPc)
  | deadline (n : ℕ) (since : τ) (p : DeadlinePc τ)
  | isNotified (n : ℕ) (p : IsNotifiedPc)
  | noteNotify (n : ℕ) (p : NoteNotifyPc)
  | noteNew (parent : Option ℕ) (absDeadline : τ) (p : NewPc)
  | noteFree (n : ℕ) (p : FreePc)
  | counterAdd (c : ℕ) (delta : Word) (p : AddPc)
  | counterReady (c : ℕ) (p : ReadyPc τ)
  | noteEnqueue (n nw : ℕ) (p : EnqueuePc)
  | noteDequeue (n nw : ℕ) (since : τ) (p : DequeuePc)
  | counterEnqueue (c nw : ℕ) (p : EnqueuePc)
  | counterDequeue (c nw : ℕ) (p : DequeuePc)
  | semWait (absDeadline : τ) (cancel : Option ℕ) (p : SemPc τ)
  | waitN (w : WaitN τ) (p : WaitPc τ)
  deriving DecidableEq, Repr

/-- What a call returns. -/
inductive Val (τ : Type) where
  | unit
  | bool (b : Bool)
  | time (x : τ)
  | value (v : Word)
  | note (n : Option ℕ)
  | dequeued (d : Dequeued)
  | outcome (o : SemOutcome)
  | index (r : ℕ)
  deriving DecidableEq, Repr

/-- The shared state and the stack of calls of each thread.  The fields `notes` and
`nws` count the notes and records allocated so far, `now` is the clock, and
`crashed` says whether an `ASSERT` has failed. -/
structure State (T τ : Type) where
  note : ℕ → Note T τ
  notes : ℕ
  counter : ℕ → Counter T
  nw : ℕ → Nw T
  nws : ℕ
  sem : T → ℕ
  now : τ
  stack : T → List (Frame τ)
  crashed : Bool

end Nsync.Wait
