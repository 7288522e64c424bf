import Nsync.Word
import Nsync.Lib.Dll
import Nsync.Lib.Run

/-!
# The pool of waiters

Any number of threads call `nsync_waiter_new_` and `nsync_waiter_free_`, and the
platform calls `waiter_destroy` when a thread exits.  While a waiter is in use its
link `nw.q` belongs to the user, who may put it on any queue; the same link keeps
the waiter on `free_waiters`.
-/

namespace Nsync.Pool

open Nsync.Lib

def waiterReserved : Word := 0x1
def waiterInUse : Word := 0x2
def waiterTag : Word := 0x0590239f
def nsyncWaiterTag : Word := 0x726d2ba9
def nsyncWaiterFlagMucv : Word := 0x1

/-- The fields of a `waiter` that the pool reads or initializes, apart from the
link `nw.q`; `container` is the `nsync_waiter_s` that `nw.q` lies in, named by its
waiter. -/
structure Waiter (W : Type) where
  tag : Word
  nwTag : Word
  container : W
  nwFlags : Word
  flags : Word

/-- Places in `nsync_spin_test_and_set_` on `free_waiters_mu`. -/
inductive SpinPc where
  | load
  | cas (old : Word)
  deriving DecidableEq, Repr

/-- Places in `do_once`. -/
inductive OncePc where
  | load
  | cas
  | reload
  | create
  | store
  | wait
  deriving DecidableEq, Repr

/-- What `do_once` is called for. -/
inductive OnceCont (W : Type) where
  | getSpecific
  | setSpecific (w : W)
  deriving DecidableEq, Repr

/-- Places in the three functions.  The local `tw` is the waiter that the thread
had reserved when it called `nsync_waiter_new_`.  The two functions that give a
waiter back end in the same way, at the places `push...`. -/
inductive Pc (W : Type) where
  | client (result : Option W)
  | newStart
  | once (k : OnceCont W) (p : OncePc)
  | getSpecific
  | newCheck (tw : Option W)
  | newSpin (tw : Option W) (p : SpinPc)
  | newFirst (tw : Option W)
  | newRemove (tw : Option W) (q : W)
  | newUnpack (tw : Option W) (q : W)
  | newRelease (tw w : Option W)
  | newMalloc (tw : Option W)
  | newReserve (tw : Option W) (w : W)
  | setSpecific (w : W)
  | setLocal (w : W)
  | newUse (w : W)
  | freeAssert (w : W)
  | freeClear (w : W)
  | freeTest (w : W)
  | destroyReset (w : W)
  | destroyAssert (w : W)
  | destroyClear (w : W)
  | pushSpin (w : W) (p : SpinPc)
  | push (w : W)
  | pushRelease
  deriving DecidableEq, Repr

/-- The shared variables and the threads.  The field `keys` counts the calls of
`pthread_key_create`, `slot` is the value that a thread has stored under the key,
and `crashed` says that an `ASSERT` has failed or that the key was used before it
was created.  The field `held` is a history variable: the waiters that a thread has
obtained and has not given back. -/
structure State (T W : Type) where
  ptOnce : Word
  keys : ℕ
  freeWaitersMu : Word
  freeWaiters : Option W
  links : Links W
  wtr : W → Waiter W
  allocated : W → Bool
  waiterForThread : T → Option W
  slot : T → Option W
  held : T → List W
  pc : T → Pc W
  crashed : Bool

variable {T W : Type} [DecidableEq T] [DecidableEq W]

namespace State

def setPc (s : State T W) (t : T) (p : Pc W) : State T W :=
  { s with pc := Function.update s.pc t p }

def flags (s : State T W) (w : W) : Word := (s.wtr w).flags

def setFlags (s : State T W) (w : W) (f : Word) : State T W :=
  { s with wtr := Function.update s.wtr w { s.wtr w with flags := f } }

def crash (s : State T W) : State T W := { s with crashed := true }

end State

/-! ## The functions -/

/-- `nsync_spin_test_and_set_ (&free_waiters_mu, 1, 1, 0)`; the thread is at
`spin p` in it and goes on at `next`. -/
def spinTestAndSet (s : State T W) (t : T) (spin : SpinPc → Pc W) (next : Pc W) :
    SpinPc → State T W
  | .load => s.setPc t (spin (.cas s.freeWaitersMu))
  | .cas old =>
      if old &&& 1#32 = 0#32 ∧ s.freeWaitersMu = old then
        { s.setPc t next with freeWaitersMu := old ||| 1#32 }
      else s.setPc t (spin .load)

/-- The place after `do_once`. -/
def OnceCont.pc : OnceCont W → Pc W
  | .getSpecific => .getSpecific
  | .setSpecific w => .setSpecific w

/-- `do_once`. -/
def doOnce (s : State T W) (t : T) (k : OnceCont W) : OncePc → State T W
  | .load =>
      s.setPc t (if s.ptOnce = 2#32 then k.pc
        else if s.ptOnce = 0#32 then .once k .cas else .once k .wait)
  | .cas =>
      if s.ptOnce = 0#32 then { s.setPc t (.once k .create) with ptOnce := 1#32 }
      else s.setPc t (.once k .reload)
  | .reload => s.setPc t (if s.ptOnce = 0#32 then .once k .cas else .once k .wait)
  | .create => { s.setPc t (.once k .store) with keys := s.keys + 1 }
  | .store => { s.setPc t (.once k .wait) with ptOnce := 2#32 }
  | .wait => s.setPc t (if s.ptOnce = 2#32 then k.pc else .once k .wait)

/-- `nsync_dll_waiter_`, with the `ASSERT`s in it and in
`nsync_dll_nsync_waiter_`. -/
def dllWaiter (s : State T W) (e : W) : Option W :=
  let w := (s.wtr e).container
  if (s.wtr w).nwTag = nsyncWaiterTag ∧ e = w ∧
      (s.wtr w).nwFlags &&& nsyncWaiterFlagMucv ≠ 0#32 ∧ (s.wtr w).tag = waiterTag then
    some w
  else none

/-- The fields of a fresh waiter. -/
def initWaiter (w : W) : Waiter W := ⟨waiterTag, nsyncWaiterTag, w, nsyncWaiterFlagMucv, 0#32⟩

/-- `nsync_waiter_new_`; `tls` is `HAVE_THREAD_LOCAL`. -/
def waiterNew (tls : Bool) (s : State T W) (t : T) : Pc W → Option (State T W)
  | .newStart =>
      some (s.setPc t (if tls then .newCheck (s.waiterForThread t) else .once .getSpecific .load))
  | .getSpecific =>
      some (if s.keys = 0 then s.crash else s.setPc t (.newCheck (s.slot t)))
  | .newCheck none => some (s.setPc t (.newSpin none .load))
  | .newCheck (some w) =>
      some (s.setPc t (if s.flags w &&& (waiterReserved ||| waiterInUse) = waiterReserved then
        .newUse w else .newSpin (some w) .load))
  | .newSpin tw p => some (spinTestAndSet s t (.newSpin tw) (.newFirst tw) p)
  | .newFirst tw =>
      some (s.setPc t (match s.links.firstOf s.freeWaiters with
        | some q => .newRemove tw q
        | none => .newRelease tw none))
  | .newRemove tw q =>
      let r := s.links.removeFrom s.freeWaiters q
      some { s.setPc t (.newUnpack tw q) with links := r.1, freeWaiters := r.2 }
  | .newUnpack tw q =>
      some (match dllWaiter s q with
        | some w => s.setPc t (.newRelease tw (some w))
        | none => s.crash)
  | .newRelease tw w =>
      some { s.setPc t (match w with
        | some w => .newReserve tw w
        | none => .newMalloc tw) with freeWaitersMu := 0#32 }
  | .newReserve none w =>
      some ((s.setFlags w (s.flags w ||| waiterReserved)).setPc t (.once (.setSpecific w) .load))
  | .newReserve (some _) w => some (s.setPc t (.newUse w))
  | .setSpecific w =>
      some (if s.keys = 0 then s.crash
        else { s.setPc t (if tls then .setLocal w else .newUse w) with
          slot := Function.update s.slot t (some w) })
  | .setLocal w =>
      some { s.setPc t (.newUse w) with
        waiterForThread := Function.update s.waiterForThread t (some w) }
  | .newUse w =>
      some { (s.setFlags w (s.flags w ||| waiterInUse)).setPc t (.client (some w)) with
        held := Function.update s.held t (w :: s.held t) }
  | _ => none

/-- The memory for a waiter comes from `malloc` or from `nsync_malloc_ptr_`, at any
address not in use. -/
def waiterMalloc (s : State T W) (t : T) (w : W) : Pc W → Option (State T W)
  | .newMalloc tw =>
      if s.allocated w then none
      else some { s.setPc t (.newReserve tw w) with
        links := ⟨Function.update s.links.next w w, Function.update s.links.prev w w⟩
        wtr := Function.update s.wtr w (initWaiter w)
        allocated := Function.update s.allocated w true }
  | _ => none

/-- `nsync_waiter_free_`, up to the point where the waiter goes on the list. -/
def waiterFree (s : State T W) (t : T) : Pc W → Option (State T W)
  | .freeAssert w =>
      some (if s.flags w &&& waiterInUse = 0#32 then s.crash else s.setPc t (.freeClear w))
  | .freeClear w =>
      some ((s.setFlags w (s.flags w &&& ~~~waiterInUse)).setPc t (.freeTest w))
  | .freeTest w =>
      some (s.setPc t (if s.flags w &&& waiterReserved = 0#32 then .pushSpin w .load
        else .client none))
  | _ => none

/-- `waiter_destroy`, up to the point where the waiter goes on the list. -/
def waiterDestroy (s : State T W) (t : T) : Pc W → Option (State T W)
  | .destroyReset w =>
      some { s.setPc t (.destroyAssert w) with
        waiterForThread := Function.update s.waiterForThread t none }
  | .destroyAssert w =>
      some (if s.flags w &&& (waiterReserved ||| waiterInUse) = waiterReserved then
        s.setPc t (.destroyClear w) else s.crash)
  | .destroyClear w =>
      some ((s.setFlags w (s.flags w &&& ~~~waiterReserved)).setPc t (.pushSpin w .load))
  | _ => none

/-- The waiter goes on `free_waiters`. -/
def pushFree (s : State T W) (t : T) : Pc W → Option (State T W)
  | .pushSpin w p => some (spinTestAndSet s t (.pushSpin w) (.push w) p)
  | .push w =>
      let r := s.links.makeFirst s.freeWaiters w
      some { s.setPc t .pushRelease with links := r.1, freeWaiters := r.2 }
  | .pushRelease => some { s.setPc t (.client none) with freeWaitersMu := 0#32 }
  | _ => none

/-! ## Runs -/

inductive Act (W : Type) where
  | waiterNew
  | waiterFree (w : W)
  /-- The thread exits, and the platform clears its slot and calls the destructor. -/
  | exit
  | step
  | malloc (w : W)
  /-- The users of waiters change the links of their waiters. -/
  | use (h : Links W)

def callStep (tls : Bool) (s : State T W) (t : T) : Option (State T W) :=
  match s.pc t with
  | .once k p => some (doOnce s t k p)
  | .freeAssert w => waiterFree s t (.freeAssert w)
  | .freeClear w => waiterFree s t (.freeClear w)
  | .freeTest w => waiterFree s t (.freeTest w)
  | .destroyReset w => waiterDestroy s t (.destroyReset w)
  | .destroyAssert w => waiterDestroy s t (.destroyAssert w)
  | .destroyClear w => waiterDestroy s t (.destroyClear w)
  | .pushSpin w p => pushFree s t (.pushSpin w p)
  | .push w => pushFree s t (.push w)
  | .pushRelease => pushFree s t .pushRelease
  | p => waiterNew tls s t p

def step (tls : Bool) (i : T × Act W) (s : State T W) : Option (State T W) :=
  if s.crashed then none
  else match i.2, s.pc i.1 with
    | .waiterNew, .client _ => some (s.setPc i.1 .newStart)
    | .waiterFree w, .client _ =>
        some { s.setPc i.1 (.freeAssert w) with
          held := Function.update s.held i.1 ((s.held i.1).erase w) }
    | .exit, .client _ =>
        (s.slot i.1).map fun w =>
          { s.setPc i.1 (.destroyReset w) with slot := Function.update s.slot i.1 none }
    | .step, _ => callStep tls s i.1
    | .malloc w, p => waiterMalloc s i.1 w p
    | .use h, _ => some { s with links := h }
    | _, _ => none

/-- What the users of the pool keep to: a thread frees waiters that it obtained and
that are on no queue, exits when it has no wait in progress, and only the links of
waiters in use change. -/
def Proper (i : T × Act W) (s : State T W) : Prop :=
  match i.2 with
  | .waiterFree w => w ∈ s.held i.1 ∧ s.links.Alone w
  | .exit => s.held i.1 = []
  | .use h => ∀ w, (∀ t, w ∉ s.held t) → h.next w = s.links.next w ∧ h.prev w = s.links.prev w
  | _ => True

/-- No waiter exists and no thread is in a call. -/
def initial (wtr : W → Waiter W) : State T W where
  ptOnce := 0#32
  keys := 0
  freeWaitersMu := 0#32
  freeWaiters := none
  links := Links.singletons
  wtr := wtr
  allocated := fun _ => false
  waiterForThread := fun _ => none
  slot := fun _ => none
  held := fun _ => []
  pc := fun _ => .client none
  crashed := false

end Nsync.Pool
