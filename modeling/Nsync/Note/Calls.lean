import Nsync.Wait.Step

/-!
# Calls on notes, one at a time

The functions of `internal/note.c` as a single caller sees them: each call runs from
its first line to its last with no other call in between.  A call has no result when
it blocks, on a mutex or in `WAIT_FOR_NO_CHILDREN`, and when an `ASSERT` fails.  A
mutex is held or not, and the records of the waiters are only removed from their
list, since nothing here reads their flags and semaphores.
-/

namespace Nsync.Note

open Nsync.Wait (Note nextIn)

/-- The notes, by number; the numbers below `notes` have been allocated. -/
@[ext] structure Heap (τ : Type) where
  note : ℕ → Note Unit τ
  notes : ℕ

variable {τ : Type} [LinearOrder τ] [OrderTop τ] [Zero τ]

def Heap.set (s : Heap τ) (n : ℕ) (x : Note Unit τ) : Heap τ :=
  { s with note := Function.update s.note n x }

def Heap.parent (s : Heap τ) (n : ℕ) : Option ℕ := (s.note n).parent

/-! ## Mutexes and counts -/

/-- `nsync_mu_lock (&n->note_mu)` -/
def lock (s : Heap τ) (n : ℕ) : Option (Heap τ) :=
  if (s.note n).noteMu = none then some (s.set n { s.note n with noteMu := some () }) else none

/-- `nsync_mu_unlock (&n->note_mu)` -/
def unlock (s : Heap τ) (n : ℕ) : Heap τ :=
  s.set n { s.note n with noteMu := none }

/-- The parent of a note whose mutex is held gets locked as well: by a `trylock`, or
else with the mutex of the note released for a while. -/
def lockParent (s : Heap τ) (n : ℕ) : Option ℕ → Option (Heap τ)
  | none => some s
  | some p =>
      match lock s p with
      | some s' => some s'
      | none => do
          let s ← lock (unlock s n) p
          lock s n

def unlockParent (s : Heap τ) : Option ℕ → Heap τ
  | none => s
  | some p => unlock s p

/-- `n->disconnecting++` -/
def incrDisconnecting (s : Heap τ) (n : ℕ) : Heap τ :=
  s.set n { s.note n with disconnecting := (s.note n).disconnecting + 1 }

/-- `n->disconnecting--` -/
def decrDisconnecting (s : Heap τ) (n : ℕ) : Heap τ :=
  s.set n { s.note n with disconnecting := (s.note n).disconnecting - 1 }

/-- `WAIT_FOR_NO_CHILDREN` -/
def waitForNoChildren (s : Heap τ) (n : ℕ) : Option (Heap τ) :=
  if (s.note n).children = [] then some s else none

/-- `parent->children` loses `n`, and `n->parent` becomes `NULL`. -/
def detach (s : Heap τ) (n : ℕ) : Option ℕ → Heap τ
  | none => s
  | some p =>
      let s := s.set p { s.note p with children := (s.note p).children.erase n }
      s.set n { s.note n with parent := none }

/-! ## Notifying -/

-- The first argument bounds the recursion: `notify` passes one that is not used up.
mutual

/-- `note_notify_child` -/
def noteNotifyChild : ℕ → Heap τ → ℕ → Option ℕ → Option (Heap τ)
  | 0, _, _, _ => none
  | k + 1, s, n, parent =>
      if 0 < (s.note n).notifiedTime then do
        let s := s.set n { s.note n with notified := true }
        let s := s.set n { s.note n with waiters := [] }
        let s ← notifyChildren k s n (s.note n).children.head?
        let s ← waitForNoChildren s n
        some (detach s n parent)
      else some s

/-- The loop over `n->children` of `note_notify_child`, from the element `p` on. -/
def notifyChildren : ℕ → Heap τ → ℕ → Option ℕ → Option (Heap τ)
  | _, s, _, none => some s
  | 0, _, _, some _ => none
  | k + 1, s, n, some child => do
      let next := nextIn (s.note n).children child
      let s ← lock s child
      let s ← if (s.note child).disconnecting = 0 then noteNotifyChild k s child (some n)
        else some s
      notifyChildren k (unlock s child) n next

end

/-- `notify` -/
def notify (s : Heap τ) (n : ℕ) : Option (Heap τ) := do
  let s ← lock s n
  if 0 < (s.note n).notifiedTime then
    let s := incrDisconnecting s n
    let parent := s.parent n
    let s ← lockParent s n parent
    let s ← noteNotifyChild ((s.notes + 1) * (s.notes + 1)) s n parent
    let s := unlockParent s parent
    let s := decrDisconnecting s n
    some (unlock s n)
  else some (unlock s n)

/-- `nsync_note_notified_deadline_`, with `now` what `nsync_time_now` returns. -/
def noteNotifiedDeadline (s : Heap τ) (n : ℕ) (now : τ) : Option (Heap τ × τ) :=
  if (s.note n).notified then some (s, 0)
  else do
    let s ← lock s n
    let ntime := (s.note n).notifiedTime
    let s := unlock s n
    if 0 < ntime then
      if ntime ≤ now then
        let s ← notify s n
        some (s, 0)
      else some (s, ntime)
    else some (s, ntime)

/-- `nsync_note_is_notified` -/
def noteIsNotified (s : Heap τ) (n : ℕ) (now : τ) : Option (Heap τ × Bool) := do
  let r ← noteNotifiedDeadline s n now
  some (r.1, decide (r.2 ≤ 0))

/-- `nsync_note_notify` -/
def noteNotify (s : Heap τ) (n : ℕ) (now : τ) : Option (Heap τ) := do
  let r ← noteNotifiedDeadline s n now
  if 0 < r.2 then notify r.1 n else some r.1

/-! ## Making and freeing -/

/-- `set_expiry_time` -/
def setExpiryTime (s : Heap τ) (n : ℕ) (t : τ) : Heap τ :=
  s.set n { s.note n with expiryTime := t, expiryTimeValid := true }

/-- A new note, with the number `notes`, as `memset` leaves it. -/
def malloc (s : Heap τ) : Heap τ :=
  { s.set s.notes ⟨false, 0, none, 0, false, none, [], [], false⟩ with notes := s.notes + 1 }

/-- The critical section of `nsync_note_new` on the mutex of the parent `p`. -/
def link (s : Heap τ) (n p : ℕ) (absDeadline : τ) : Heap τ :=
  let parentTime := (s.note p).notifiedTime
  let s := if parentTime < absDeadline then setExpiryTime s n parentTime else s
  if 0 < parentTime then
    let s := s.set n { s.note n with parent := some p }
    s.set p { s.note p with children := (s.note p).children ++ [n] }
  else s

/-- `nsync_note_new`; the result is the number of the note, if `malloc` succeeds. -/
def noteNew (s : Heap τ) (parent : Option ℕ) (absDeadline : τ) (ok : Bool) (now : τ) :
    Option (Heap τ × Option ℕ) :=
  if ok then do
    let n := s.notes
    let s := setExpiryTime (malloc s) n absDeadline
    let r ← noteIsNotified s n now
    match r.2, parent with
    | false, some p => do
        let s ← lock r.1 p
        some (unlock (link s n p absDeadline) p, some n)
    | _, _ => some (r.1, some n)
  else some (s, none)

/-- A child of `n` becomes a child of `parent`, or a root. -/
def adopt (s : Heap τ) (n child : ℕ) (parent : Option ℕ) : Heap τ :=
  let s := s.set n { s.note n with children := (s.note n).children.erase child }
  match parent with
  | some p =>
      let s := s.set child { s.note child with parent := some p }
      s.set p { s.note p with children := (s.note p).children ++ [child] }
  | none => s.set child { s.note child with parent := none }

/-- The loop over `n->children` of `nsync_note_free`, from the element `p` on.  The
first argument bounds the number of its rounds. -/
def adoptChildren : ℕ → Heap τ → ℕ → Option ℕ → Option ℕ → Option (Heap τ)
  | _, s, _, _, none => some s
  | 0, _, _, _, some _ => none
  | k + 1, s, n, parent, some child => do
      let next := nextIn (s.note n).children child
      let s ← lock s child
      let s := if (s.note child).disconnecting = 0 then adopt s n child parent else s
      adoptChildren k (unlock s child) n parent next

/-- `nsync_note_free` -/
def noteFree (s : Heap τ) (n : ℕ) : Option (Heap τ) := do
  let s ← lock s n
  let s := incrDisconnecting s n
  if (s.note n).waiters = [] then
    let parent := s.parent n
    let s ← lockParent s n parent
    let s ← adoptChildren s.notes s n parent (s.note n).children.head?
    let s ← waitForNoChildren s n
    let s := unlockParent (detach s n parent) parent
    let s := decrDisconnecting s n
    let s := unlock s n
    some (s.set n { s.note n with freed := true })
  else none

/-- `nsync_note_expiry` -/
def noteExpiry (s : Heap τ) (n : ℕ) : τ := (s.note n).expiryTime

/-! ## Sequences of calls -/

inductive Call (τ : Type) where
  /-- A call of `nsync_note_new`, with whether `malloc` succeeds. -/
  | new (parent : Option ℕ) (absDeadline : τ) (ok : Bool)
  | notify (n : ℕ)
  | isNotified (n : ℕ)
  | free (n : ℕ)
  deriving DecidableEq

/-- What a call returns. -/
inductive Val where
  | unit
  | bool (b : Bool)
  | note (n : Option ℕ)
  deriving DecidableEq

/-- The call `c`, made at the time `now`. -/
def call (s : Heap τ) (c : Call τ) (now : τ) : Option (Heap τ × Val) :=
  match c with
  | .new parent d ok => (noteNew s parent d ok now).map fun r => (r.1, .note r.2)
  | .notify n => (noteNotify s n now).map fun r => (r, .unit)
  | .isNotified n => (noteIsNotified s n now).map fun r => (r.1, .bool r.2)
  | .free n => (noteFree s n).map fun r => (r, .unit)

/-- A note that has been made and not freed. -/
def Heap.Live (s : Heap τ) (n : ℕ) : Prop := n < s.notes ∧ (s.note n).freed = false

/-- The notes that a call is given. -/
def Call.notes : Call τ → List ℕ
  | .new parent _ _ => parent.toList
  | .notify n => [n]
  | .isNotified n => [n]
  | .free n => [n]

/-- A call, its time, and the notes before it. -/
structure Event (τ : Type) where
  before : Heap τ
  call : Call τ
  now : τ

/-- No note has been made. -/
def Heap.initial : Heap τ := ⟨fun _ => ⟨false, 0, none, 0, false, none, [], [], false⟩, 0⟩

/-- The sequences of calls, each on notes in use and at a time that is not earlier than
those before it, with the notes after the last call. -/
inductive Run : List (Event τ) → Heap τ → Prop
  | nil : Run [] Heap.initial
  | call {es : List (Event τ)} {s s' : Heap τ} {c : Call τ} {now : τ} {v : Val}
      (h : Run es s) (live : ∀ n ∈ c.notes, s.Live n) (later : ∀ e ∈ es, e.now ≤ now)
      (returns : Note.call s c now = some (s', v)) : Run (es ++ [⟨s, c, now⟩]) s'

end Nsync.Note
