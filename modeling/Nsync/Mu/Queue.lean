import Nsync.Mu.State

/-!
# Queue operations

The list operations of `internal/dll.c` on the sequence that a queue denotes,
and the functions of `internal/mu.c` that keep the `same_condition` links of
queued waiters up to date.
-/

namespace Nsync.Mu

open Nsync.Lib

variable {T σ : Type} [DecidableEq T]

/-- `nsync_dll_next_`: the element after `x`, if `x` is not the last one. -/
def dllNext : List T → T → Option T
  | [], _ => none
  | a :: l, x => if a = x then l.head? else dllNext l x

/-- The element before `x`, if `x` is not the first one. -/
def dllPrev : List T → T → Option T
  | [], _ => none
  | [_], _ => none
  | a :: b :: l, x => if b = x then some a else dllPrev (b :: l) x

/-- The `next` link of `x` in the circular list. -/
def linkNext (l : List T) (x : T) : Option T := (dllNext l x).or l.head?

/-- The `prev` link of `x` in the circular list. -/
def linkPrev (l : List T) (x : T) : Option T := (dllPrev l x).or l.getLast?

/-- `nsync_maybe_merge_conditions_` -/
def maybeMergeConditions (E : Env σ) (wtr : T → Waiter) (h : Links T) (p n : Option T) :
    Links T :=
  match p, n with
  | some p, some n =>
      if waitConditionEq E (wtr p).cond (wtr n).cond then h.spliceAfter p n else h
  | _, _ => h

/-- `skip_past_same_condition` -/
def skipPastSameCondition (h : Links T) (waiterList : List T) (p : T) : Option T :=
  let lastWithSameCondition := h.prev p
  if lastWithSameCondition ≠ p ∧ some lastWithSameCondition ≠ linkPrev waiterList p then
    dllNext waiterList lastWithSameCondition
  else
    dllNext waiterList p

/-- The `same_condition` part of `nsync_remove_from_mu_queue_`, for an element
`e` of `queue`. -/
def removeSameCondition (E : Env σ) (wtr : T → Waiter) (h : Links T) (queue : List T) (e : T) :
    Links T :=
  let rest := queue.erase e
  if rest = [] then h
  else if h.next e ≠ e then h.unlink e
  else if linkPrev queue e ≠ rest.getLast? then
    maybeMergeConditions E wtr h (linkPrev queue e) (linkNext queue e)
  else h

end Nsync.Mu
