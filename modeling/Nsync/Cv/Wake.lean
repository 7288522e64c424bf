import Nsync.Mu.Step

/-!
# How a list of waiters is woken

The function `wake_waiters` on a list with every kind of waiter, step by step, while
other threads use the mutex.  These may change the word at any time, but leave the
queue of the mutex alone while the spinlock is held here, and do not touch a record
before its flag is cleared or it can be found on that queue.  The lists are the
sequences of their elements.
-/

set_option linter.unusedSectionVars false

namespace Nsync.Cv.Wake

open Nsync.Mu

variable {α M : Type} [DecidableEq α] [DecidableEq M]

/-! ## The function -/

/-- The fields of a record: whether `NSYNC_WAITER_FLAG_MUCV` is set, `l_type` and `cv_mu`,
which only a record with the flag has, and `waiting`. -/
structure Nw (M : Type) where
  mucv : Bool
  lType : Option Mode
  cvMu : Option M
  waiting : Bool
  deriving DecidableEq

/-- An `nsync_mu`. -/
structure Mutex (α : Type) where
  word : Word
  waiters : List α

/-- Places in `wake_waiters`, with its locals. -/
inductive Pc (α M : Type) where
  | start
  | load (first : α) (pmu : M)
  | cas (first : α) (pmu : M) (old : Word) (next : Option α)
  | first (first : α) (pmu : M) (cant : Bool) (next : Option α)
  | loop (pmu : M) (cant firstIsWriter transferredAWriter wokeAReader : Bool) (p : Option α)
  | releaseLoad (pmu : M) (set : Bool)
  | releaseCas (pmu : M) (set : Bool) (old : Word)
  | wake (p : Option α)
  | clear (p : α) (next : Option α)
  | post (p : α) (next : Option α)
  | done

/-- What the successful CAS found and left. -/
structure Cas (α : Type) where
  before : Word
  after : Word
  queue : List α

/-- The state of a call.  The last five fields are history variables: the CAS that
acquired the spinlock, whether `MU_WRITER_WAITING` is in `set_on_release`, and the
records that have been put on the queue of the mutex, had `waiting` cleared, and had
their semaphore posted. -/
structure State (α M : Type) where
  mu : M → Mutex α
  nw : α → Nw M
  pc : Pc α M
  toWake : List α
  allReaders : Bool
  acquired : Option (Cas α)
  requested : Bool
  moved : List α
  cleared : List α
  posted : List α

/-- The element after `e`, as `nsync_dll_next_` finds it. -/
def nextIn (l : List α) (e : α) : Option α := (l.dropWhile (· ≠ e)).tail.head?

/-- `first_w->l_type->zero_to_acquire` -/
def Nw.zeroToAcquire (x : Nw M) : Word :=
  match x.lType with
  | some m => m.lockType.zeroToAcquire
  | none => 0#32

def Nw.isWriter (x : Nw M) : Bool := decide (x.lType = some .writer)

namespace State

def setWord (s : State α M) (m : M) (w : Word) : State α M :=
  { s with mu := Function.update s.mu m { s.mu m with word := w } }

/-- Move `x` from `to_wake_list` to `pmu->waiters`, and set its `cv_mu` to `NULL`. -/
def transfer (s : State α M) (m : M) (x : α) : State α M :=
  { s with
    toWake := s.toWake.erase x
    mu := Function.update s.mu m { s.mu m with waiters := (s.mu m).waiters ++ [x] }
    nw := Function.update s.nw x { s.nw x with cvMu := none }
    moved := s.moved ++ [x] }

/-- Go to the last loop. -/
def toWakeLoop (s : State α M) : State α M := { s with pc := .wake s.toWake.head? }

end State

/-- `wake_waiters` -/
def step (s : State α M) : Option (State α M) :=
  match s.pc with
  | .start =>
      match s.toWake with
      | [] => none
      | first :: _ =>
          if (s.nw first).mucv then
            match (s.nw first).cvMu with
            | some m => some { s with pc := .load first m }
            | none => some s.toWakeLoop
          else some s.toWakeLoop
  | .load first m =>
      let old := (s.mu m).word
      let next := nextIn s.toWake first
      if old &&& muAnyLock ≠ 0#32 ∧ old &&& muSpinlock = 0#32 ∧
          (old &&& (s.nw first).zeroToAcquire ≠ 0#32 ∨ (next ≠ none ∧ s.allReaders = false)) then
        some { s with pc := .cas first m old next }
      else some s.toWakeLoop
  | .cas first m old next =>
      if (s.mu m).word = old then
        some { s.setWord m (transferWord old) with
          pc := .first first m (decide (old &&& (s.nw first).zeroToAcquire ≠ 0#32)) next
          acquired := some ⟨(s.mu m).word, transferWord old, (s.mu m).waiters⟩ }
      else some s.toWakeLoop
  | .first first m cant next =>
      let isWriter := (s.nw first).isWriter
      if cant then some { s.transfer m first with pc := .loop m cant isWriter isWriter false next }
      else some { s with pc := .loop m cant isWriter false (!isWriter) next }
  | .loop m cant firstIsWriter tw wr (some p) =>
      let next := nextIn s.toWake p
      let isWriter := (s.nw p).mucv && (s.nw p).isWriter
      if (s.nw p).mucv = false then some { s with pc := .loop m cant firstIsWriter tw wr next }
      else if cant || firstIsWriter || isWriter then
        some { s.transfer m p with pc := .loop m cant firstIsWriter (tw || isWriter) wr next }
      else some { s with pc := .loop m cant firstIsWriter tw (wr || !isWriter) next }
  | .loop m _ _ tw wr none =>
      some { s with pc := .releaseLoad m (tw && !wr), requested := tw && !wr }
  | .releaseLoad m set => some { s with pc := .releaseCas m set (s.mu m).word }
  | .releaseCas m set old =>
      if (s.mu m).word = old then some (s.setWord m (transferReleaseWord set old)).toWakeLoop
      else some { s with pc := .releaseLoad m set }
  | .wake (some p) =>
      some { s with pc := .clear p (nextIn s.toWake p), toWake := s.toWake.erase p }
  | .wake none => some { s with pc := .done }
  | .clear p next =>
      some { s with
        nw := Function.update s.nw p { s.nw p with waiting := false }
        pc := .post p next
        cleared := s.cleared ++ [p] }
  | .post p next => some { s with pc := .wake next, posted := s.posted ++ [p] }
  | .done => none

/-! ## The other threads -/

/-- The mutex whose spinlock is held here. -/
def Pc.holds : Pc α M → Option M
  | .first _ m _ _ => some m
  | .loop m _ _ _ _ _ => some m
  | .releaseLoad m _ => some m
  | .releaseCas m _ _ => some m
  | _ => none

/-- The record that has been taken off `to_wake_list` and not been woken yet. -/
def Pc.taken : Pc α M → Option α
  | .clear p _ => some p
  | _ => none

/-- The records that only this call may change. -/
def State.Ours (s : State α M) (x : α) : Prop := x ∈ s.toWake ∨ s.pc.taken = some x

/-- What the other threads may do. -/
structure Interferes (s s' : State α M) : Prop where
  mine : s' = { s with mu := s'.mu, nw := s'.nw }
  /-- Our records stay as they are, and on no other list. -/
  ours : ∀ x, s.Ours x → s'.nw x = s.nw x ∧ ∀ m, x ∉ (s'.mu m).waiters
  /-- The spinlock protects the queue and the records on it. -/
  locked : ∀ m, s.pc.holds = some m → (s'.mu m).waiters = (s.mu m).waiters ∧
    (s'.mu m).word &&& muSpinlock ≠ 0#32 ∧ ∀ x ∈ s.moved, s'.nw x = s.nw x

/-- A step of the call or of the other threads. -/
def Steps (s s' : State α M) : Prop := step s = some s' ∨ Interferes s s'

/-- A call with the list `L`, whose native members wait with `mu`, if this is an
`nsync_mu`. -/
structure Called (L : List α) (mu : Option M) (s : State α M) : Prop where
  pc : s.pc = .start
  toWake : s.toWake = L
  ne_nil : L ≠ []
  nodup : L.Nodup
  shared : ∀ x ∈ L, (s.nw x).mucv = true → (s.nw x).cvMu = mu
  typed : ∀ x ∈ L, (s.nw x).mucv = true → ((s.nw x).lType = none ↔ mu = none)
  waiting : ∀ x ∈ L, (s.nw x).waiting = true
  unlisted : ∀ x ∈ L, ∀ m, x ∉ (s.mu m).waiters
  acquired : s.acquired = none
  requested : s.requested = false
  moved : s.moved = []
  cleared : s.cleared = []
  posted : s.posted = []

end Nsync.Cv.Wake
