import Nsync.Word
import Nsync.Lib.Run

/-!
# Counters

Any number of threads use one `nsync_counter`.  A thread may add, read, wait
with `nsync_counter_wait`, or wait for the counter together with other objects
in `nsync_wait_n`; in the latter case the other objects appear only through the
choices they leave to the caller.  The mutex of the counter is a plain lock with
one owner.  A failed `ASSERT` stops the whole system.
-/

namespace Nsync.Counter

open Nsync.Lib

/-- A call of `nsync_counter_wait` (`counter`), or of `nsync_wait_n` on several
objects.  The flag `enqueued` is the result of `counter_enqueue`. -/
structure Wait where
  counter : Bool
  enqueued : Bool
  deriving DecidableEq, Repr

/-- Places in `internal/counter.c` and in the part of `nsync_wait_n` that deals
with the counter.  An `int32_t` is kept as a word `d`, whose value is
`d.toInt`; `old` is the value that the CAS of an add replaces. -/
inductive Pc (T : Type) where
  | client (result : Option Word)
  | valueLoad
  | addLock (d : Word)
  | addLoad (d : Word)
  | addCas (d old : Word)
  | addCheck (d old : Word)
  | addWake (d old : Word)
  | addPost (d old : Word) (x : T)
  | addUnlock (d old : Word)
  | readyStore (first : Bool) (w : Wait)
  | readyLoad (first : Bool) (w : Wait)
  | enqLock (w : Wait)
  | enqLoad (w : Wait)
  | enqLink (value : Word) (w : Wait)
  | enqUnlock (w : Wait)
  | enqDone (w : Wait)
  | sleep (w : Wait)
  | deqLock (w : Wait)
  | deqLoad (w : Wait)
  | deqCheck (value : Word) (w : Wait)
  | deqRemove (value : Word) (w : Wait)
  | deqUnlock (value : Word) (w : Wait)
  | resultLoad
  deriving DecidableEq, Repr

/-- The counter, and for each thread the `nsync_waiter_s` record of its wait.  A
record is named by its thread, and `crashed` says whether an `ASSERT` has failed.
The last three fields are history variables: the
posts that adds have made for each record since it was queued, whether some
`nsync_counter_wait` has returned 0, and whether some `counter_ready_time` has
reported zero. -/
structure State (T : Type) where
  waited : Bool
  mu : Option T
  value : Word
  waiters : List T
  waiting : T → Bool
  sem : T → ℕ
  pc : T → Pc T
  crashed : Bool
  posts : T → ℕ
  zeroReturned : Bool
  zeroReported : Bool

variable {T : Type} [DecidableEq T]

namespace State

def setPc (s : State T) (t : T) (p : Pc T) : State T := { s with pc := Function.update s.pc t p }

def setWaiting (s : State T) (t : T) (b : Bool) : State T :=
  { s with waiting := Function.update s.waiting t b }

/-- `nsync_counter_wait` returns `v` to thread `t`. -/
def waitReturns (s : State T) (t : T) (v : Word) : State T :=
  { s.setPc t (.client (some v)) with zeroReturned := s.zeroReturned || v == 0#32 }

end State

/-- The thread locks `counter_mu`, which must be free. -/
def lockMu (s : State T) (t : T) (p : Pc T) : Option (State T) :=
  if s.mu = none then some { s.setPc t p with mu := some t } else none

/-- The `ASSERT`s of `nsync_counter_add` on a value that the add of `d` has just
stored; `waited` is the value loaded from the counter. -/
def assertsHold (d value : Word) (waited : Bool) : Bool :=
  if 0 < d.toInt then (value ≠ d || !waited) && decide (value - d < value)
  else decide (value < value - d)

/-- `nsync_counter_add`; an add of 0 only loads the value. -/
def counterAdd (s : State T) (t : T) : Pc T → Option (State T)
  | .addLock d =>
      if d = 0#32 then some (s.setPc t (.client (some s.value))) else lockMu s t (.addLoad d)
  | .addLoad d => some (s.setPc t (.addCas d s.value))
  | .addCas d old =>
      if s.value = old then some { s.setPc t (.addCheck d old) with value := old + d }
      else some (s.setPc t (.addLoad d))
  | .addCheck d old =>
      if assertsHold d (old + d) s.waited then
        some (s.setPc t (if old + d = 0#32 then .addWake d old else .addUnlock d old))
      else some { s with crashed := true }
  | .addWake d old =>
      match s.waiters with
      | [] => some (s.setPc t (.addUnlock d old))
      | x :: rest =>
          some { (s.setWaiting x false).setPc t (.addPost d old x) with waiters := rest }
  | .addPost d old x =>
      some { s.setPc t (.addWake d old) with
        sem := Function.update s.sem x (s.sem x + 1)
        posts := Function.update s.posts x (s.posts x + 1) }
  | .addUnlock d old => some { s.setPc t (.client (some (old + d))) with mu := none }
  | _ => none

/-- What the caller of `counter_ready_time` does next: with `go` it goes on to
queue itself or to sleep, with `stop` it does not, because its deadline has
passed or another object is ready. -/
inductive Choice where
  | go
  | stop
  deriving DecidableEq, Repr

/-- The end of a wait in which the counter was not found ready: only
`nsync_counter_wait` reads the value once more. -/
def waitNotReady (s : State T) (t : T) (w : Wait) : State T :=
  s.setPc t (if w.counter then .resultLoad else .client none)

/-- The end of a wait in which the counter was found ready. -/
def waitReady (s : State T) (t : T) (w : Wait) : State T :=
  if w.counter then s.waitReturns t 0#32 else s.setPc t (.client none)

/-- `counter_ready_time`, called by `nsync_wait_n` before queueing (`first`) and
again before every sleep. -/
def counterReadyTime (s : State T) (t : T) (ch : Choice) : Pc T → Option (State T)
  | .readyStore first w => some { s.setPc t (.readyLoad first w) with waited := true }
  | .readyLoad first w =>
      if s.value = 0#32 then
        let s' := { s with zeroReported := true }
        some (if first then waitReady s' t w else s'.setPc t (.deqLock w))
      else
        match first, ch with
        | true, .go => some ((s.setWaiting t false).setPc t (.enqLock w))
        | true, .stop => some (waitNotReady s t w)
        | false, .go => some (s.setPc t (.sleep w))
        | false, .stop => if w.counter then none else some (s.setPc t (.deqLock w))
  | _ => none

/-- `counter_enqueue` -/
def counterEnqueue (s : State T) (t : T) : Pc T → Option (State T)
  | .enqLock w => lockMu s t (.enqLoad w)
  | .enqLoad w => some (s.setPc t (.enqLink s.value w))
  | .enqLink value w =>
      if value ≠ 0#32 then
        some { (s.setWaiting t true).setPc t (.enqUnlock { w with enqueued := true }) with
          waiters := s.waiters ++ [t]
          posts := Function.update s.posts t 0 }
      else some ((s.setWaiting t false).setPc t (.enqUnlock { w with enqueued := false }))
  | .enqUnlock w => some { s.setPc t (.enqDone w) with mu := none }
  | _ => none

/-- `counter_dequeue`, and what `nsync_wait_n` makes of its result. -/
def counterDequeue (s : State T) (t : T) : Pc T → Option (State T)
  | .deqLock w => lockMu s t (.deqLoad w)
  | .deqLoad w => some (s.setPc t (.deqCheck s.value w))
  | .deqCheck value w =>
      some (s.setPc t (if s.waiting t then .deqRemove value w else .deqUnlock value w))
  | .deqRemove value w =>
      some { (s.setWaiting t false).setPc t (.deqUnlock value w) with
        waiters := s.waiters.erase t }
  | .deqUnlock value w =>
      let s' := { s with mu := none }
      some (if value = 0#32 then waitReady s' t w else waitNotReady s' t w)
  | _ => none

inductive Call where
  | add (delta : Word)
  | value
  | wait
  | waitN
  deriving DecidableEq, Repr

/-- A thread makes a call, goes on inside one, or finds its semaphore posted by
somebody else. -/
inductive Act where
  | call (c : Call)
  | step (ch : Choice)
  | post
  deriving DecidableEq, Repr

/-- One step of thread `t`; nobody moves after a failed `ASSERT`. -/
def step (t : T) (a : Act) (s : State T) : Option (State T) :=
  if s.crashed then none else match a with
  | .post => some { s with sem := Function.update s.sem t (s.sem t + 1) }
  | .call c =>
      match s.pc t with
      | .client _ =>
          some (s.setPc t (match c with
            | .add d => .addLock d
            | .value => .valueLoad
            | .wait => .readyStore true ⟨true, false⟩
            | .waitN => .readyStore true ⟨false, false⟩))
      | _ => none
  | .step ch =>
      match s.pc t with
      | .client _ => none
      | .valueLoad => some (s.setPc t (.client (some s.value)))
      | .resultLoad => some (s.waitReturns t s.value)
      | p@(.readyStore ..) | p@(.readyLoad ..) => counterReadyTime s t ch p
      | p@(.enqLock _) | p@(.enqLoad _) | p@(.enqLink ..) | p@(.enqUnlock _) => counterEnqueue s t p
      | .enqDone w =>
          -- another object may have stopped the queueing
          match ch with
          | .go => some (s.setPc t (.readyStore false w))
          | .stop => if w.counter then none else some (s.setPc t (.deqLock w))
      | .sleep w =>
          match ch with
          | .go =>
              if 0 < s.sem t then
                some { s.setPc t (.readyStore false w) with
                  sem := Function.update s.sem t (s.sem t - 1) }
              else none
          | .stop => some (s.setPc t (.deqLock w))
      | p@(.deqLock _) | p@(.deqLoad _) | p@(.deqCheck ..) | p@(.deqRemove ..)
      | p@(.deqUnlock ..) => counterDequeue s t p
      | p => counterAdd s t p

/-- `nsync_counter_new` -/
def counterNew (value : Word) : State T where
  waited := false
  mu := none
  value := value
  waiters := []
  waiting := fun _ => false
  sem := fun _ => 0
  pc := fun _ => .client none
  crashed := false
  posts := fun _ => 0
  zeroReturned := false
  zeroReported := false

end Nsync.Counter
