import Nsync.Wait.State

/-!
# Notes, counters and waits: the steps

A thread is described by the stack of its calls.  The function `action` reads off
the source what the innermost call does next: it goes on locally, it performs one
operation on the shared state, it makes a call, or it returns.  The function
`apply` says what such an operation does.
-/

namespace Nsync.Wait

open Nsync.Lib

variable {T τ : Type} [DecidableEq T] [LinearOrder τ] [OrderTop τ] [Zero τ]

/-! ## Operations -/

/-- What a call does next; the last argument is the place where it goes on. -/
inductive Eff (τ P : Type) where
  | goto (p : P)
  /-- The call calls `g`. -/
  | call (p : P) (g : Frame τ)
  | ret (v : Val τ)
  /-- An `ASSERT` fails. -/
  | crash
  | lock (n : ℕ) (p : P)
  | unlock (n : ℕ) (p : P)
  | setNotified (n : ℕ) (p : P)
  /-- The first waiter of a note is taken off its list. -/
  | popWaiter (n : ℕ) (p : P)
  /-- A record is put at the end of the list of a note, with its flag set. -/
  | pushWaiter (n nw : ℕ) (p : P)
  /-- A record is taken off the list of a note, with `b` in its flag. -/
  | removeWaiter (n nw : ℕ) (b : Bool) (p : P)
  | incr (n : ℕ) (p : P)
  | decr (n : ℕ) (p : P)
  /-- A note is taken out of the children of its parent. -/
  | detach (n parent : ℕ) (p : P)
  /-- A child of `n` becomes a child of `parent`, or a root. -/
  | adopt (n child : ℕ) (parent : Option ℕ) (p : P)
  /-- A new note, which has the number `notes`. -/
  | malloc (absDeadline : τ) (p : P)
  /-- A new note gets the expiry time `x` of `parent` if that is earlier than its own,
  and becomes a child of `parent` if `x` is positive. -/
  | link (n parent : ℕ) (x : τ) (p : P)
  | free (n : ℕ) (p : P)
  /-- The next `k` records, which post the semaphore of the thread. -/
  | newRecords (k : ℕ) (waiting : Bool) (p : P)
  | setWaiting (nw : ℕ) (b : Bool) (p : P)
  | post (nw : ℕ) (p : P)
  /-- The thread takes a token from its semaphore. -/
  | take (p : P)
  | lockCounter (c : ℕ) (p : P)
  | unlockCounter (c : ℕ) (p : P)
  | setWaited (c : ℕ) (p : P)
  | setValue (c : ℕ) (v : Word) (p : P)
  | popCounter (c : ℕ) (p : P)
  | pushCounter (c nw : ℕ) (p : P)
  | removeCounter (c nw : ℕ) (p : P)

/-- The same operation, with the place seen as one of type `Q`. -/
def Eff.map {P Q : Type} (k : P → Q) : Eff τ P → Eff τ Q
  | .goto p => .goto (k p)
  | .call p g => .call (k p) g
  | .ret v => .ret v
  | .crash => .crash
  | .lock n p => .lock n (k p)
  | .unlock n p => .unlock n (k p)
  | .setNotified n p => .setNotified n (k p)
  | .popWaiter n p => .popWaiter n (k p)
  | .pushWaiter n nw p => .pushWaiter n nw (k p)
  | .removeWaiter n nw b p => .removeWaiter n nw b (k p)
  | .incr n p => .incr n (k p)
  | .decr n p => .decr n (k p)
  | .detach n parent p => .detach n parent (k p)
  | .adopt n child parent p => .adopt n child parent (k p)
  | .malloc d p => .malloc d (k p)
  | .link n parent x p => .link n parent x (k p)
  | .free n p => .free n (k p)
  | .newRecords j b p => .newRecords j b (k p)
  | .setWaiting nw b p => .setWaiting nw b (k p)
  | .post nw p => .post nw (k p)
  | .take p => .take (k p)
  | .lockCounter c p => .lockCounter c (k p)
  | .unlockCounter c p => .unlockCounter c (k p)
  | .setWaited c p => .setWaited c (k p)
  | .setValue c v p => .setValue c v (k p)
  | .popCounter c p => .popCounter c (k p)
  | .pushCounter c nw p => .pushCounter c nw (k p)
  | .removeCounter c nw p => .removeCounter c nw (k p)

namespace State

def setNote (s : State T τ) (n : ℕ) (x : Note T τ) : State T τ :=
  { s with note := Function.update s.note n x }

def setCounter (s : State T τ) (c : ℕ) (x : Counter T) : State T τ :=
  { s with counter := Function.update s.counter c x }

def setNw (s : State T τ) (nw : ℕ) (x : Nw T) : State T τ :=
  { s with nw := Function.update s.nw nw x }

def setStack (s : State T τ) (t : T) (l : List (Frame τ)) : State T τ :=
  { s with stack := Function.update s.stack t l }

end State

/-! ## Returns -/

/-- A call goes on when the call that it made returns `v`. -/
def Frame.resume (v : Val τ) : Frame τ → Frame τ
  | .notifyChild n parent (.called child next) => .notifyChild n parent (.unlockChild child next)
  | .notify n (.called (some parent)) => .notify n (.unlockParent parent)
  | .notify n (.called none) => .notify n .decr
  | .deadline n a .called => .deadline n a (.result 0)
  | .isNotified n .called =>
      match v with
      | .time x => .isNotified n (.result (x ≤ 0))
      | _ => .isNotified n .called
  | .noteNotify n .called =>
      match v with
      | .time x => .noteNotify n (if 0 < x then .notify else .done)
      | _ => .noteNotify n .called
  | .noteNotify n .notifyCalled => .noteNotify n .done
  | .noteNew parent d (.called n) =>
      match v with
      | .bool b => .noteNew parent d (if !b && parent.isSome then .lockParent n else .result (some n))
      | _ => .noteNew parent d (.called n)
  | .noteDequeue n nw a .called => .noteDequeue n nw a .lock
  | .semWait d c .called =>
      match v with
      | .time x => .semWait d c (if 0 < x then .init else .result .cancelled none)
      | _ => .semWait d c .called
  | .semWait d c (.notifyCalled nw) => .semWait d c (.relock nw .cancelled .timedOut)
  | .waitN w .firstCalled =>
      match v with
      | .time x => if 0 < x then .waitN { w with ready := w.ready + 1 } .first else .waitN w .result
      | _ => .waitN w .firstCalled
  | .waitN w .enqueueCalled =>
      match v with
      | .bool b =>
          .waitN { w with i := w.i + 1 }
            (if w.i + 1 = w.waitable.length ∨ b = true then .enqueue else .dequeue 0)
      | _ => .waitN w .enqueueCalled
  | .waitN w (.scanCalled j m) =>
      match v with
      | .time x => .waitN w (.scan (j + 1) (if x < m then x else m))
      | _ => .waitN w (.scanCalled j m)
  | .waitN w (.dequeueCalled j) =>
      match v with
      | .dequeued d =>
          .waitN { w with
            log := w.log ++ [d]
            ready := if !d.wasQueued && w.ready = w.waitable.length then j else w.ready }
            (.dequeue (j + 1))
      | _ => .waitN w (.dequeueCalled j)
  | f => f

/-- The innermost call returns `v`. -/
def Frame.returnTo (v : Val τ) : List (Frame τ) → List (Frame τ)
  | [] => []
  | f :: rest => f.resume v :: rest

/-- Thread `t`, with the calls `rest` below the innermost one, does `e`. -/
def apply (s : State T τ) (t : T) (rest : List (Frame τ)) :
    Eff τ (Frame τ) → State T τ
  | .goto f => s.setStack t (f :: rest)
  | .call f g => s.setStack t (g :: f :: rest)
  | .ret v => s.setStack t (Frame.returnTo v rest)
  | .crash => { s with crashed := true }
  | .lock n f => (s.setNote n { s.note n with noteMu := some t }).setStack t (f :: rest)
  | .unlock n f => (s.setNote n { s.note n with noteMu := none }).setStack t (f :: rest)
  | .setNotified n f => (s.setNote n { s.note n with notified := true }).setStack t (f :: rest)
  | .popWaiter n f =>
      (s.setNote n { s.note n with waiters := (s.note n).waiters.tail }).setStack t (f :: rest)
  | .pushWaiter n nw f =>
      ((s.setNote n { s.note n with waiters := (s.note n).waiters ++ [nw] }).setNw nw
        { s.nw nw with waiting := true, posts := 0 }).setStack t (f :: rest)
  | .removeWaiter n nw b f =>
      ((s.setNote n { s.note n with waiters := (s.note n).waiters.erase nw }).setNw nw
        { s.nw nw with waiting := b }).setStack t (f :: rest)
  | .incr n f =>
      (s.setNote n { s.note n with disconnecting := (s.note n).disconnecting + 1 }).setStack t
        (f :: rest)
  | .decr n f =>
      (s.setNote n { s.note n with disconnecting := (s.note n).disconnecting - 1 }).setStack t
        (f :: rest)
  | .detach n parent f =>
      let s' := s.setNote parent
        { s.note parent with children := (s.note parent).children.erase n }
      (s'.setNote n { s'.note n with parent := none }).setStack t (f :: rest)
  | .adopt n child parent f =>
      let s' := s.setNote n { s.note n with children := (s.note n).children.erase child }
      let s'' := s'.setNote child { s'.note child with parent := parent }
      (match parent with
        | some p => s''.setNote p { s''.note p with children := (s''.note p).children ++ [child] }
        | none => s'').setStack t (f :: rest)
  | .malloc d f =>
      { (s.setNote s.notes ⟨true, d, none, 0, false, none, [], [], false⟩).setStack t (f :: rest) with
        notes := s.notes + 1 }
  | .link n parent x f =>
      let s' := s.setNote n { s.note n with
        expiryTime := if x < (s.note n).expiryTime then x else (s.note n).expiryTime }
      (if 0 < x then
        (s'.setNote n { s'.note n with parent := some parent }).setNote parent
          { s'.note parent with children := (s'.note parent).children ++ [n] }
       else s').setStack t (f :: rest)
  | .free n f => (s.setNote n { s.note n with freed := true }).setStack t (f :: rest)
  | .newRecords k b f =>
      { s.setStack t (f :: rest) with
        nws := s.nws + k
        nw := fun x => if s.nws ≤ x ∧ x < s.nws + k then ⟨b, some t, 0⟩ else s.nw x }
  | .setWaiting nw b f => (s.setNw nw { s.nw nw with waiting := b }).setStack t (f :: rest)
  | .post nw f =>
      { (s.setNw nw { s.nw nw with posts := (s.nw nw).posts + 1 }).setStack t (f :: rest) with
        sem := match (s.nw nw).sem with
          | some u => Function.update s.sem u (s.sem u + 1)
          | none => s.sem }
  | .take f => { s.setStack t (f :: rest) with sem := Function.update s.sem t (s.sem t - 1) }
  | .lockCounter c f =>
      (s.setCounter c { s.counter c with counterMu := some t }).setStack t (f :: rest)
  | .unlockCounter c f =>
      (s.setCounter c { s.counter c with counterMu := none }).setStack t (f :: rest)
  | .setWaited c f => (s.setCounter c { s.counter c with waited := true }).setStack t (f :: rest)
  | .setValue c v f => (s.setCounter c { s.counter c with value := v }).setStack t (f :: rest)
  | .popCounter c f =>
      (s.setCounter c { s.counter c with waiters := (s.counter c).waiters.tail }).setStack t
        (f :: rest)
  | .pushCounter c nw f =>
      ((s.setCounter c { s.counter c with waiters := (s.counter c).waiters ++ [nw] }).setNw nw
        { s.nw nw with waiting := true, posts := 0 }).setStack t (f :: rest)
  | .removeCounter c nw f =>
      ((s.setCounter c { s.counter c with waiters := (s.counter c).waiters.erase nw }).setNw nw
        { s.nw nw with waiting := false }).setStack t (f :: rest)

/-! ## The functions of the source -/

/-- How a choice that the state leaves open comes out: `fail` is the failure of a
`trylock` or of `malloc`, and the end of a wait by its deadline. -/
inductive Choice where
  | run
  | fail
  deriving DecidableEq, Repr

/-- The element after `e`, as `nsync_dll_next_` finds it. -/
def nextIn (l : List ℕ) (e : ℕ) : Option ℕ := (l.dropWhile (· ≠ e)).tail.head?

/-- `nsync_mu_lock (&n->note_mu)` -/
def lockNote {P : Type} (s : State T τ) (n : ℕ) (p : P) : Option (Eff τ P) :=
  if (s.note n).noteMu = none then some (.lock n p) else none

/-- `nsync_mu_lock (&c->counter_mu)` -/
def lockCounterMu {P : Type} (s : State T τ) (c : ℕ) (p : P) : Option (Eff τ P) :=
  if (s.counter c).counterMu = none then some (.lockCounter c p) else none

/-- `nsync_mu_trylock (&n->note_mu)`, which may fail even if the mutex is free. -/
def tryLockNote {P : Type} (s : State T τ) (n : ℕ) (ch : Choice) (won lost : P) : Eff τ P :=
  if (s.note n).noteMu = none ∧ ch = .run then .lock n won else .goto lost

/-- `note_notify_child` -/
def noteNotifyChild (s : State T τ) (n : ℕ) (parent : Option ℕ) : ChildPc → Option (Eff τ ChildPc)
  | .test => some (.goto (if 0 < (s.note n).notifiedTime then .store else .done))
  | .store => some (.setNotified n .wake)
  | .wake =>
      some (match (s.note n).waiters with
        | nw :: _ => .popWaiter n (.clear nw)
        | [] => .goto (.loop (s.note n).children.head?))
  | .clear nw => some (.setWaiting nw false (.post nw))
  | .post nw => some (.post nw .wake)
  | .loop p =>
      some (.goto (match p with
        | some child => .lockChild child (nextIn (s.note n).children child)
        | none => .wait))
  | .lockChild child next => lockNote s child (.check child next)
  | .check child next =>
      some (if (s.note child).disconnecting = 0 then
          .call (.called child next) (.notifyChild child (some n) .test)
        else .goto (.unlockChild child next))
  | .called _ _ => none
  | .unlockChild child next => some (.unlock child (.loop next))
  | .wait => some (if (s.note n).children = [] then .goto .detach else .unlock n .waiting)
  | .waiting => if (s.note n).children = [] then lockNote s n .detach else none
  | .detach =>
      some (match parent with
        | some p => .detach n p .done
        | none => .goto .done)
  | .done => some (.ret .unit)

/-- `notify` -/
def notify (s : State T τ) (n : ℕ) (ch : Choice) : NotifyPc → Option (Eff τ NotifyPc)
  | .lock => lockNote s n .test
  | .test => some (.goto (if 0 < (s.note n).notifiedTime then .incr else .unlock))
  | .incr =>
      some (.incr n (match (s.note n).parent with
        | some p => .tryParent p
        | none => .call none))
  | .tryParent p => some (tryLockNote s p ch (.call (some p)) (.unlockSelf p))
  | .unlockSelf p => some (.unlock n (.lockParent p))
  | .lockParent p => lockNote s p (.relockSelf p)
  | .relockSelf p => lockNote s n (.call (some p))
  | .call parent => some (.call (.called parent) (.notifyChild n parent .test))
  | .called _ => none
  | .unlockParent p => some (.unlock p .decr)
  | .decr => some (.decr n .unlock)
  | .unlock => some (.unlock n .done)
  | .done => some (.ret .unit)

/-- `nsync_note_notified_deadline_` -/
def noteNotifiedDeadline (s : State T τ) (n : ℕ) : DeadlinePc τ → Option (Eff τ (DeadlinePc τ))
  | .load => some (.goto (if (s.note n).notified then .result 0 else .lock))
  | .lock => lockNote s n .read
  | .read => some (.goto (.unlock (s.note n).notifiedTime))
  | .unlock x => some (.unlock n (.check x))
  | .check x =>
      some (if 0 < x ∧ x ≤ s.now then .call .called (.notify n .lock) else .goto (.result x))
  | .called => none
  | .result x => some (.ret (.time x))

/-- `nsync_note_is_notified` -/
def noteIsNotified (s : State T τ) (n : ℕ) : IsNotifiedPc → Option (Eff τ IsNotifiedPc)
  | .call => some (.call .called (.deadline n s.now .load))
  | .called => none
  | .result b => some (.ret (.bool b))

/-- `nsync_note_notify` -/
def noteNotify (s : State T τ) (n : ℕ) : NoteNotifyPc → Option (Eff τ NoteNotifyPc)
  | .call => some (.call .called (.deadline n s.now .load))
  | .called => none
  | .notify => some (.call .notifyCalled (.notify n .lock))
  | .notifyCalled => none
  | .done => some (.ret .unit)

/-- `nsync_note_new` -/
def noteNew (s : State T τ) (parent : Option ℕ) (d : τ) (ch : Choice) :
    NewPc → Option (Eff τ NewPc)
  | .malloc =>
      some (match ch with
        | .run => .malloc d (.call s.notes)
        | .fail => .goto (.result none))
  | .call n => some (.call (.called n) (.isNotified n .call))
  | .called _ => none
  | .lockParent n => parent.bind fun p => lockNote s p (.link n)
  | .link n => parent.map fun p => .link n p (s.note p).notifiedTime (.unlockParent n)
  | .unlockParent n => parent.map fun p => .unlock p (.result (some n))
  | .result n => some (.ret (.note n))

/-- `nsync_note_free` -/
def noteFree (s : State T τ) (n : ℕ) (ch : Choice) : FreePc → Option (Eff τ FreePc)
  | .lock => lockNote s n .incr
  | .incr =>
      some (if (s.note n).waiters = [] then
          .incr n (match (s.note n).parent with
            | some p => .tryParent p
            | none => .first none)
        else .crash)
  | .tryParent p => some (tryLockNote s p ch (.first (some p)) (.unlockSelf p))
  | .unlockSelf p => some (.unlock n (.lockParent p))
  | .lockParent p => lockNote s p (.relockSelf p)
  | .relockSelf p => lockNote s n (.first (some p))
  | .first parent => some (.goto (.loop parent (s.note n).children.head?))
  | .loop parent p =>
      some (.goto (match p with
        | some child => .lockChild parent child (nextIn (s.note n).children child)
        | none => .wait parent))
  | .lockChild parent child next => lockNote s child (.adopt parent child next)
  | .adopt parent child next =>
      some (if (s.note child).disconnecting = 0 then
          .adopt n child parent (.unlockChild parent child next)
        else .goto (.unlockChild parent child next))
  | .unlockChild parent child next => some (.unlock child (.loop parent next))
  | .wait parent =>
      some (if (s.note n).children = [] then .goto (.detach parent) else .unlock n (.waiting parent))
  | .waiting parent => if (s.note n).children = [] then lockNote s n (.detach parent) else none
  | .detach parent =>
      some (match parent with
        | some p => .detach n p (.unlockParent p)
        | none => .goto .decr)
  | .unlockParent p => some (.unlock p .decr)
  | .decr => some (.decr n .unlock)
  | .unlock => some (.unlock n .free)
  | .free => some (.free n .done)
  | .done => some (.ret .unit)

/-- The `ASSERT`s of `nsync_counter_add` on a value that the add of `delta` has just
stored; `waited` is the value loaded from the counter. -/
def assertsHold (delta value : Word) (waited : Bool) : Bool :=
  if 0 < delta.toInt then (value ≠ delta || !waited) && decide (value - delta < value)
  else decide (value < value - delta)

/-- `nsync_counter_add` -/
def counterAdd (s : State T τ) (c : ℕ) (d : Word) : AddPc → Option (Eff τ AddPc)
  | .lock =>
      if d = 0#32 then some (.goto (.result (s.counter c).value)) else lockCounterMu s c .load
  | .load => some (.goto (.cas (s.counter c).value))
  | .cas old =>
      some (if (s.counter c).value = old then .setValue c (old + d) (.check old) else .goto .load)
  | .check old =>
      some (if assertsHold d (old + d) (s.counter c).waited then
          .goto (if old + d = 0#32 then .wake old else .unlock old)
        else .crash)
  | .wake old =>
      some (match (s.counter c).waiters with
        | nw :: _ => .popCounter c (.clear old nw)
        | [] => .goto (.unlock old))
  | .clear old nw => some (.setWaiting nw false (.post old nw))
  | .post old nw => some (.post nw (.wake old))
  | .unlock old => some (.unlockCounter c (.result (old + d)))
  | .result v => some (.ret (.value v))

/-- `counter_ready_time` -/
def counterReadyTime (s : State T τ) (c : ℕ) : ReadyPc τ → Option (Eff τ (ReadyPc τ))
  | .store => some (.setWaited c .load)
  | .load => some (.goto (.result (if (s.counter c).value = 0#32 then 0 else ⊤)))
  | .result r => some (.ret (.time r))

/-- `note_enqueue` -/
def noteEnqueue (s : State T τ) (n nw : ℕ) : EnqueuePc → Option (Eff τ EnqueuePc)
  | .lock => lockNote s n .link
  | .link =>
      some (if 0 < (s.note n).notifiedTime then .pushWaiter n nw (.unlock true)
        else .setWaiting nw false (.unlock false))
  | .unlock b => some (.unlock n (.result b))
  | .result b => some (.ret (.bool b))

/-- `note_dequeue` -/
def noteDequeue (s : State T τ) (n nw : ℕ) : DequeuePc → Option (Eff τ DequeuePc)
  | .call => some (.call .called (.deadline n s.now .load))
  | .called => none
  | .lock => lockNote s n .unlink
  | .unlink =>
      let onList := decide (nw ∈ (s.note n).waiters)
      some (if 0 < (s.note n).notifiedTime then
          .removeWaiter n nw false (.unlock ⟨true, onList, false⟩)
        else .goto (.unlock ⟨false, onList, true⟩))
  | .unlock d => some (.unlock n (.result d))
  | .result d => some (.ret (.dequeued d))

/-- `counter_enqueue` -/
def counterEnqueue (s : State T τ) (c nw : ℕ) : EnqueuePc → Option (Eff τ EnqueuePc)
  | .lock => lockCounterMu s c .link
  | .link =>
      some (if (s.counter c).value ≠ 0#32 then .pushCounter c nw (.unlock true)
        else .setWaiting nw false (.unlock false))
  | .unlock b => some (.unlockCounter c (.result b))
  | .result b => some (.ret (.bool b))

/-- `counter_dequeue` -/
def counterDequeue (s : State T τ) (c nw : ℕ) : DequeuePc → Option (Eff τ DequeuePc)
  | .call | .called => none
  | .lock => lockCounterMu s c .unlink
  | .unlink =>
      let d : Dequeued := ⟨(s.counter c).value ≠ 0#32, nw ∈ (s.counter c).waiters,
        (s.counter c).value = 0#32⟩
      some (if (s.nw nw).waiting then .removeCounter c nw (.unlock d) else .goto (.unlock d))
  | .unlock d => some (.unlockCounter c (.result d))
  | .result d => some (.ret (.dequeued d))

/-- `nsync_mu_semaphore_p_with_deadline` on the semaphore of `t`: it takes a token, or
ends when the clock has reached the deadline. -/
def semaphoreP {P : Type} (s : State T τ) (t : T) (deadline : τ) (ch : Choice) (taken : P)
    (late : Eff τ P) : Option (Eff τ P) :=
  match ch with
  | .run => if 0 < s.sem t then some (.take taken) else none
  | .fail => if deadline ≤ s.now then some late else none

/-- `nsync_sem_wait_with_cancel_`, with the waiter of `t`. -/
def semWaitWithCancel (s : State T τ) (t : T) (d : τ) (cancel : Option ℕ) (ch : Choice) :
    SemPc τ → Option (Eff τ (SemPc τ))
  | .start =>
      some (match cancel with
        | none => .goto .sleepOnly
        | some c => .call .called (.deadline c s.now .load))
  | .sleepOnly =>
      semaphoreP s t d ch (.result .ok (some .ok)) (.goto (.result .timedOut (some .timedOut)))
  | .called => none
  | .init => some (.newRecords 1 true (.lock s.nws))
  | .lock nw => cancel.bind fun c => lockNote s c (.link nw)
  | .link nw =>
      cancel.map fun c =>
        let cancelTime := (s.note c).notifiedTime
        if 0 < cancelTime then
          .pushWaiter c nw (if d < cancelTime then .unlockSleep nw d true
            else .unlockSleep nw cancelTime false)
        else .goto (.unlock nw .cancelled none)
  | .unlockSleep nw x nearer => cancel.map fun c => .unlock c (.sleep nw x nearer)
  | .sleep nw x nearer =>
      cancel.bind fun c =>
        semaphoreP s t x ch (.relock nw .ok .ok)
          (if nearer then .goto (.relock nw .timedOut .timedOut)
            else .call (.notifyCalled nw) (.noteNotify c .call))
  | .notifyCalled _ => none
  | .relock nw o p => cancel.bind fun c => lockNote s c (.unlink nw o p)
  | .unlink nw o p =>
      cancel.map fun c =>
        if 0 < (s.note c).notifiedTime then
          .removeWaiter c nw (s.nw nw).waiting (.unlock nw o (some p))
        else .goto (.unlock nw o (some p))
  | .unlock _ o p => cancel.map fun c => .unlock c (.result o p)
  | .result o _ => some (.ret (.outcome o))

/-- A call of `ready_time`. -/
def Waitable.readyTime (now : τ) : Waitable → Frame τ
  | .note n => .deadline n now .load
  | .counter c => .counterReady c .store

/-- A call of `enqueue`. -/
def Waitable.enqueue (nw : ℕ) : Waitable → Frame τ
  | .note n => .noteEnqueue n nw .lock
  | .counter c => .counterEnqueue c nw .lock

/-- A call of `dequeue`. -/
def Waitable.dequeue (nw : ℕ) (now : τ) : Waitable → Frame τ
  | .note n => .noteDequeue n nw now .call
  | .counter c => .counterDequeue c nw .lock

/-- `nsync_wait_n` -/
def waitN (s : State T τ) (t : T) (w : WaitN τ) (ch : Choice) :
    WaitPc τ → Option (Eff τ (WaitN τ × WaitPc τ))
  | .first =>
      some (match w.waitable[w.ready]? with
        | some v => .call (w, .firstCalled) (v.readyTime s.now)
        | none => .goto (w, if 0 < w.absDeadline then .alloc else .result))
  | .firstCalled => none
  | .alloc =>
      some (.newRecords w.waitable.length false ({ w with nw := s.nws, queueing := true }, .enqueue))
  | .enqueue =>
      some (match w.waitable[w.i]? with
        | some v => .call (w, .enqueueCalled) (v.enqueue (w.nw + w.i))
        | none => .goto (w, .unlockMu))
  | .enqueueCalled => none
  | .unlockMu =>
      some (.goto (if w.mu then { w with unlocked := true, muCalls := w.muCalls ++ [.unlock] } else w,
        .scan 0 w.absDeadline))
  | .scan j m =>
      some (match w.waitable[j]? with
        | some v => .call (w, .scanCalled j m) (v.readyTime s.now)
        | none => .goto (w, if 0 < m then .sleep m else .dequeue 0))
  | .scanCalled _ _ => none
  | .sleep m =>
      semaphoreP s t m ch (w, .scan 0 w.absDeadline)
        (.goto ({ w with timedOut := some s.now }, .dequeue 0))
  | .dequeue j =>
      if j = w.i then some (.goto (w, if w.unlocked then .lockMu else .result))
      else match w.waitable[j]? with
        | some v => some (.call (w, .dequeueCalled j) (v.dequeue (w.nw + j) s.now))
        | none => none
  | .dequeueCalled _ => none
  | .lockMu => some (.goto ({ w with muCalls := w.muCalls ++ [.lock] }, .result))
  | .result => some (.ret (.index w.ready))

/-- What the call `f` of thread `t` does next. -/
def action (s : State T τ) (t : T) (ch : Choice) : Frame τ → Option (Eff τ (Frame τ))
  | .notifyChild n parent p => (noteNotifyChild s n parent p).map (.map (.notifyChild n parent))
  | .notify n p => (notify s n ch p).map (.map (.notify n))
  | .deadline n a p => (noteNotifiedDeadline s n p).map (.map (.deadline n a))
  | .isNotified n p => (noteIsNotified s n p).map (.map (.isNotified n))
  | .noteNotify n p => (noteNotify s n p).map (.map (.noteNotify n))
  | .noteNew parent d p => (noteNew s parent d ch p).map (.map (.noteNew parent d))
  | .noteFree n p => (noteFree s n ch p).map (.map (.noteFree n))
  | .counterAdd c d p => (counterAdd s c d p).map (.map (.counterAdd c d))
  | .counterReady c p => (counterReadyTime s c p).map (.map (.counterReady c))
  | .noteEnqueue n nw p => (noteEnqueue s n nw p).map (.map (.noteEnqueue n nw))
  | .noteDequeue n nw a p => (noteDequeue s n nw p).map (.map (.noteDequeue n nw a))
  | .counterEnqueue c nw p => (counterEnqueue s c nw p).map (.map (.counterEnqueue c nw))
  | .counterDequeue c nw p => (counterDequeue s c nw p).map (.map (.counterDequeue c nw))
  | .semWait d cancel p => (semWaitWithCancel s t d cancel ch p).map (.map (.semWait d cancel))
  | .waitN w p => (waitN s t w ch p).map (.map fun q => .waitN q.1 q.2)

/-! ## Runs -/

inductive Call (τ : Type) where
  | noteNew (parent : Option ℕ) (absDeadline : τ)
  | noteNotify (n : ℕ)
  | noteIsNotified (n : ℕ)
  | noteFree (n : ℕ)
  | counterAdd (c : ℕ) (delta : Word)
  | semWaitWithCancel (absDeadline : τ) (cancel : Option ℕ)
  | waitN (mu : Bool) (absDeadline : τ) (waitable : List Waitable)
  deriving DecidableEq, Repr

def Call.frame : Call τ → Frame τ
  | .noteNew parent d => .noteNew parent d .malloc
  | .noteNotify n => .noteNotify n .call
  | .noteIsNotified n => .isNotified n .call
  | .noteFree n => .noteFree n .lock
  | .counterAdd c d => .counterAdd c d .lock
  | .semWaitWithCancel d cancel => .semWait d cancel .start
  | .waitN mu d ws => .waitN ⟨mu, d, ws, 0, 0, 0, false, false, none, [], []⟩ .first

/-- A thread makes a call or goes on in one, finds its semaphore posted for another
reason, or the clock advances. -/
inductive Act (τ : Type) where
  | call (c : Call τ)
  | step (ch : Choice)
  | post
  | tick (now : τ)
  deriving DecidableEq, Repr

/-- One step of a thread; nobody moves after a failed `ASSERT`. -/
def step (i : T × Act τ) (s : State T τ) : Option (State T τ) :=
  if s.crashed then none
  else match i.2 with
    | .call c => if s.stack i.1 = [] then some (s.setStack i.1 [c.frame]) else none
    | .step ch =>
        match s.stack i.1 with
        | [] => none
        | f :: rest => (action s i.1 ch f).map (apply s i.1 rest)
    | .post => some { s with sem := Function.update s.sem i.1 (s.sem i.1 + 1) }
    | .tick x => if s.now ≤ x then some { s with now := x } else none

/-- There is no note, the counters have the values `value`, the semaphores hold any
number of tokens, and no thread is in a call. -/
def initial (value : ℕ → Word) (sem : T → ℕ) (now : τ) : State T τ where
  note := fun _ => ⟨false, 0, none, 0, false, none, [], [], false⟩
  notes := 0
  counter := fun c => ⟨false, none, value c, []⟩
  nw := fun _ => ⟨false, none, 0⟩
  nws := 0
  sem := sem
  now := now
  stack := fun _ => []
  crashed := false

end Nsync.Wait
