import Nsync.Mu.Handshake

/-!
# Removals from the queues

Every removal of a waiter from a queue is a successful CAS on its
`remove_count`, made by a waker or, after a timeout or a cancellation, by its
owner, who has seen that the count had not changed.
-/

namespace Nsync.Mu

open Nsync.Lib

variable {T σ : Type}

/-- The waiter whose `remove_count` thread `t` is about to increment. -/
def Pc.removing (t : T) : Pc T → Option T
  | .unlockSlow _ _ (.scanRemove _ x (.cas _)) => some x
  | .muWait _ (.tryRemove _ (.cas _)) => some t
  | .cvWait _ (.remove _ (.cas _)) => some t
  | .signal _ (.removeFirst _ x (.cas _)) => some x
  | .signal _ (.remove _ x (.cas _)) => some x
  | _ => none

/-- The thread has found its own waiter still queued and removes it. -/
def Pc.Mine (p : Pc T) : Prop := p.phase = .muMine ∨ ∃ c, p.phase = .cvMine c

/-- Where a remover at `q` has the waiter afterwards, at `p`: on a list of waiters
to wake, or, if it is its own, on no list. -/
def Pc.Took (t x : T) (q p : Pc T) : Prop :=
  x ∈ p.wake ∨ x ∈ p.toWake ∨
    (q.Mine ∧ x = t ∧ (p.phase = .off true ∨ p.phase = .cvOff true))

/-- The step of `t` counts a removal of the waiter of `x`. -/
structure Removes (t x : T) (s s' : State T σ) : Prop where
  place : (s.pc t).removing t = some x
  count : (s'.wtr x).removeCount = (s.wtr x).removeCount + 1#32
  others : ∀ y, y ≠ x → (s'.wtr y).removeCount = (s.wtr y).removeCount
  took : Pc.Took t x (s.pc t) (s'.pc t)

/-- No removal is counted. -/
def SameCounts (s s' : State T σ) : Prop :=
  ∀ y, (s'.wtr y).removeCount = (s.wtr y).removeCount

variable [DecidableEq T] {E : Env σ} {s s' : State T σ} {t x : T}

theorem SameCounts.update (x : T) {w : Waiter} (hw : s'.wtr = Function.update s.wtr x w)
    (hc : w.removeCount = (s.wtr x).removeCount) : SameCounts s s' := by
  intro y
  rcases eq_or_ne y x with rfl | hy
  · rw [hw, Function.update_self, hc]
  · rw [hw, Function.update_of_ne hy]

omit [DecidableEq T] in
theorem SameCounts.of_wtr (hw : s'.wtr = s.wtr) : SameCounts s s' := by
  intro y
  rw [hw]

/-- The count of one waiter goes up. -/
theorem Removes.of_wtr (hp : (s.pc t).removing t = some x)
    (hw : s'.wtr = Function.update s.wtr x (s.wtr x).removed)
    (htook : Pc.Took t x (s.pc t) (s'.pc t)) :
    Removes t x s s' where
  place := hp
  count := by simp [hw, Waiter.removed]
  others y hy := by simp [hw, hy]
  took := htook

theorem semP_sameCounts {p : Pc T} (hs : semP s t p = some s') : SameCounts s s' := by
  unfold semP at hs
  split at hs <;> cases hs
  exact .update t rfl rfl

theorem semWaitWithCancel_sameCounts {b : Bool} {f : Outcome → Pc T} {ch : Choice}
    (hs : semWaitWithCancel s t b f ch = some s') : SameCounts s s' := by
  cases ch <;> simp only [semWaitWithCancel] at hs
  case run => exact semP_sameCounts hs
  all_goals
    split at hs <;> cases hs
    exact .of_wtr rfl

theorem muLock_sameCounts (m : Mode) (b : Bool) (k : LockCont) (p : LockPc) :
    SameCounts s (muLock s t m b k p) := by
  cases p <;> simp only [muLock] <;> repeat' split
  all_goals
    first
    | exact .of_wtr rfl
    | exact .of_wtr (afterLock_wtr ..)
    | exact .update t rfl rfl

theorem muLockSlow_sameCounts {l : LockSlow} {k : LockCont} {p : LockSlowPc}
    (hs : muLockSlow s t l k p = some s') : SameCounts s s' := by
  rcases p with _ | _ | _ | _ | ⟨_ | _⟩ | _ | _ <;> simp only [muLockSlow] at hs
  case sem => exact semP_sameCounts hs
  all_goals repeat' split at hs
  all_goals
    cases hs
    first
    | exact .of_wtr rfl
    | exact .of_wtr (afterLock_wtr ..)
    | exact .update t rfl rfl

theorem muUnlockSlow_removes {m : Mode} {k : UnlockCont} {p : UnlockSlowPc T}
    (hpc : s.pc t = .unlockSlow m k p) :
    SameCounts s (muUnlockSlow E s t m k p) ∨ ∃ x, Removes t x s (muUnlockSlow E s t m k p) := by
  rcases p with _ | _ | _ | ⟨_, _ | _⟩ | _ | ⟨sc, x, _ | _⟩ | ⟨_, _ | _⟩ | ⟨_, _ | _⟩ | ⟨x, wake⟩ |
      ⟨x, wake⟩ <;> simp only [muUnlockSlow]
  case scanRemove.cas =>
    split
    · refine Or.inr ⟨x, .of_wtr (by simp [hpc, Pc.removing]) rfl (Or.inl ?_)⟩
      simp [State.setPc, Pc.wake]
    · exact Or.inl (.of_wtr rfl)
  case wakeStore => exact Or.inl (.update x rfl rfl)
  case wakeSem => exact Or.inl (.update x (wakeNext_wtr ..) rfl)
  all_goals
    refine Or.inl (.of_wtr ?_)
    repeat' split
    all_goals first | rfl | simp [scanStep_wtr, scanAppend, State.setWord]

theorem wakeWaiters_sameCounts (l : Wake T) (p : WakePc T) :
    SameCounts s (wakeWaiters E s t l p) := by
  rcases p with _ | _ | ⟨_, _ | _⟩ | _ | x <;> simp only [wakeWaiters]
  case cas =>
    split
    · exact .of_wtr rfl
    · split
      · intro y
        simp only
        split <;> rfl
      · exact .of_wtr (wakeStart_wtr ..)
  case store =>
    split
    · exact .of_wtr rfl
    · next x rest hw => exact .update x rfl rfl
  case sem => exact .update x (wakeStart_wtr ..) rfl
  all_goals
    refine .of_wtr ?_
    repeat' split
    all_goals first | rfl | simp [State.setWord]

theorem cvSignal_removes {l : Signal T} {p : SignalPc T} (hpc : s.pc t = .signal l p) :
    SameCounts s (cvSignal s t l p) ∨ ∃ x, Removes t x s (cvSignal s t l p) := by
  rcases p with _ | ⟨_ | _⟩ | ⟨_, x, _ | _⟩ | _ | ⟨_, x, _ | _⟩ | _ <;>
    simp only [cvSignal, signalDone]
  case removeFirst.cas =>
    split
    · refine Or.inr ⟨x, .of_wtr (by simp [hpc, Pc.removing]) ?_ (Or.inr (Or.inl ?_))⟩
      · split <;> rfl
      · split <;> simp [State.setPc, Pc.toWake]
    · exact Or.inl (.of_wtr rfl)
  case remove.cas =>
    split
    · refine Or.inr ⟨x, .of_wtr (by simp [hpc, Pc.removing]) rfl (Or.inr (Or.inl ?_))⟩
      simp [State.setPc, Pc.toWake]
    · exact Or.inl (.of_wtr rfl)
  all_goals
    refine Or.inl (.of_wtr ?_)
    repeat' split
    all_goals rfl

theorem muWaitWithDeadline_removes {l : MuWait} {ch : Choice} {p : MuWaitPc}
    (hpc : s.pc t = .muWait l p) (hs : muWaitWithDeadline E s t l ch p = some s') :
    SameCounts s s' ∨ ∃ x, Removes t x s s' := by
  rcases p with _ | _ | _ | _ | ⟨_ | _⟩ | ⟨_ | _⟩ | _ | _ | _ | _ | _ | _ | _ | _ | ⟨_, _ | _⟩ |
      _ | _ | _ | _ <;> simp only [muWaitWithDeadline] at hs
  case sem => exact Or.inl (semWaitWithCancel_sameCounts hs)
  case tryRemove.cas =>
    split at hs <;> cases hs
    · refine Or.inr ⟨t, .of_wtr (by simp [hpc, Pc.removing]) rfl (Or.inr (Or.inr ⟨?_, rfl, ?_⟩))⟩
      · simp [hpc, Pc.Mine, Pc.phase]
      · simp [State.setPc, Pc.phase]
    · exact Or.inl (.of_wtr rfl)
  all_goals repeat' split at hs
  all_goals
    cases hs
    left
    first
    | exact .of_wtr rfl
    | exact .update t rfl rfl

theorem cvWaitWithDeadline_removes {l : CvWait} {ch : Choice} {p : CvWaitPc}
    (hpc : s.pc t = .cvWait l p) (hs : cvWaitWithDeadline s t l ch p = some s') :
    SameCounts s s' ∨ ∃ x, Removes t x s s' := by
  rcases p with _ | _ | ⟨_ | _⟩ | _ | _ | _ | _ | _ | ⟨_ | _⟩ | _ | _ | ⟨_, _ | _⟩ | _ | _ | _ <;>
    simp only [cvWaitWithDeadline] at hs
  case sem => exact Or.inl (semWaitWithCancel_sameCounts hs)
  case remove.cas =>
    split at hs <;> cases hs
    · refine Or.inr ⟨t, .of_wtr (by simp [hpc, Pc.removing]) rfl (Or.inr (Or.inr ⟨?_, rfl, ?_⟩))⟩
      · simp [hpc, Pc.Mine, Pc.phase]
      · simp [State.setPc, Pc.phase]
    · exact Or.inl (.of_wtr rfl)
  all_goals repeat' split at hs
  all_goals
    cases hs
    left
    first
    | exact .of_wtr rfl
    | exact .update t rfl rfl

/-- A step counts at most one removal. -/
theorem step_removes {a : Act σ} (hs : step E t a s = some s') :
    SameCounts s s' ∨ ∃ x, Removes t x s s' := by
  cases a with
  | post =>
      cases hs
      exact Or.inl (.update t rfl rfl)
  | call c =>
      simp only [step] at hs
      split at hs
      · exact Or.inl (.of_wtr (callStep_wtr hs))
      · cases hs
  | step ch =>
      simp only [step] at hs
      cases hpc : s.pc t <;> simp only [hpc, Option.some.injEq] at hs
      case client | panicked => cases hs
      case lock => exact Or.inl (hs ▸ muLock_sameCounts _ _ _ _)
      case lockSlow => exact Or.inl (muLockSlow_sameCounts hs)
      case unlock =>
        refine Or.inl (.of_wtr (funext fun y => ?_))
        rw [← hs, muUnlock_wtr]
      case unlockSlow => exact hs ▸ muUnlockSlow_removes hpc
      case muWait => exact muWaitWithDeadline_removes hpc hs
      case cvWait => exact cvWaitWithDeadline_removes hpc hs
      case signal => exact hs ▸ cvSignal_removes hpc
      case wakeWaiters => exact Or.inl (hs ▸ wakeWaiters_sameCounts _ _)
      case debug =>
        refine Or.inl (.of_wtr (funext fun y => ?_))
        rw [← hs, debugState_wtr]

/-! ## Removal by the owner -/

/-- A thread that is about to remove its own waiter `w` has timed out or was
cancelled, and has seen the count that it remembers. -/
def Pc.Checked (w : Waiter) : Pc T → Prop
  | .muWait l p =>
      match p with
      | .recheck | .tryLoad | .tryAcquire _ | .trySetWriterWaiting _ | .tryCheckWaiting _
      | .tryCheckCount _ => l.semOutcome ≠ .ok
      | .tryRemove _ _ => l.semOutcome ≠ .ok ∧ w.removeCount = l.removeCount
      | _ => True
  | .cvWait l (.remove _ _) => l.semOutcome ≠ .ok ∧ w.removeCount = l.removeCount
  | _ => True

omit [DecidableEq T] in
theorem Pc.checked_of_atCall {p : Pc T} {w : Waiter} (h : p.atCall = true) : p.Checked w := by
  cases p with
  | muWait l p => cases p <;> trivial
  | cvWait l p => cases p <;> trivial
  | _ => trivial

theorem muWaitWithDeadline_checked {l : MuWait} {ch : Choice} {p : MuWaitPc}
    (hc : Pc.Checked (s.wtr t) (.muWait l p : Pc T))
    (hs : muWaitWithDeadline E s t l ch p = some s') : (s'.pc t).Checked (s'.wtr t) := by
  rcases p with _ | _ | _ | _ | ⟨_ | _⟩ | ⟨_ | _⟩ | _ | _ | _ | _ | _ | _ | _ | _ | ⟨_, _ | _⟩ |
      _ | _ | _ | _ <;> simp only [muWaitWithDeadline] at hs
  case sem =>
    obtain ⟨o, hpc'⟩ := semWaitWithCancel_pc hs
    cases o <;> simp [hpc', Pc.Checked]
  case tryCheckCount =>
    split at hs <;> cases hs
    · next hrc =>
        rw [State.setPc_self]
        exact ⟨hc, hrc.symm⟩
    · rw [State.setPc_self]
      trivial
  case tryRemove.load =>
    cases hs
    rw [State.setPc_self]
    exact hc
  case tryRemove.cas =>
    split at hs <;> cases hs
    · simp [State.setPc, Pc.Checked]
    · rw [State.setPc_self]
      exact hc
  all_goals repeat' split at hs
  all_goals
    cases hs
    first
    | rw [State.setPc_self]; exact hc
    | simp [startLockSlow, State.setPc, Pc.Checked]

theorem cvWaitWithDeadline_checked {C : WaitCondition → Prop} {w : Waiter} {l : CvWait}
    {ch : Choice} {p : CvWaitPc} (hok : Pc.Ok C w (.cvWait l p : Pc T))
    (hc : Pc.Checked (s.wtr t) (.cvWait l p : Pc T))
    (hs : cvWaitWithDeadline s t l ch p = some s') : (s'.pc t).Checked (s'.wtr t) := by
  rcases p with _ | _ | ⟨_ | _⟩ | _ | _ | _ | _ | _ | ⟨_ | _⟩ | _ | _ | ⟨_, _ | _⟩ | _ | _ | _ <;>
    simp only [cvWaitWithDeadline] at hs
  case sem =>
    obtain ⟨o, hpc'⟩ := semWaitWithCancel_pc hs
    cases o <;> simp [hpc', Pc.Checked]
  case checkCount =>
    split at hs <;> cases hs
    · next hrc =>
        rw [State.setPc_self]
        exact ⟨hok.2.2.1, hrc.symm⟩
    · rw [State.setPc_self]
      trivial
  case remove.load =>
    cases hs
    rw [State.setPc_self]
    exact hc
  case remove.cas =>
    split at hs <;> cases hs
    · simp [State.setPc, Pc.Checked]
    · rw [State.setPc_self]
      exact hc
  all_goals repeat' split at hs
  all_goals
    cases hs
    simp [startLockSlow, State.setPc, Pc.Checked]

/-- Every step of a thread keeps what it has checked about its own waiter. -/
theorem step_checked {C : WaitCondition → Prop} {w : Waiter} {a : Act σ}
    (hok : (s.pc t).Ok C w) (hc : (s.pc t).Checked (s.wtr t)) (hs : step E t a s = some s') :
    (s'.pc t).Checked (s'.wtr t) := by
  cases a with
  | post =>
      cases hs
      have hrc : ((s.setWtr t (Waiter.post E)).wtr t).removeCount = (s.wtr t).removeCount := by
        simp [State.setWtr, Waiter.post]
      change (s.pc t).Checked _
      generalize s.pc t = p at hc
      cases p with
      | muWait l p => cases p <;> first | exact hc | exact ⟨hc.1, hrc.trans hc.2⟩
      | cvWait l p => cases p <;> first | exact hc | exact ⟨hc.1, hrc.trans hc.2⟩
      | _ => trivial
  | call c =>
      simp only [step] at hs
      split at hs
      · next held hpc =>
          cases c <;> simp only [callStep] at hs
          case muWait | cvWait =>
            cases held <;> cases hs
            simp [State.setPc, Pc.Checked]
          case signal | debug =>
            cases hs
            simp [State.setPc, Pc.Checked]
          all_goals
            split at hs <;> cases hs
            simp [hpc, State.setPc, Pc.Checked]
      · cases hs
  | step ch =>
      rcases step_atCall hs with ⟨l, k, p, hpc, hs⟩ | ⟨l, p, hpc, hs⟩ | ⟨l, p, hpc, hs⟩ | ⟨-, hpc'⟩
      · rcases p with _ | _ | _ | _ | ⟨_ | _⟩ | _ | _ <;> simp only [muLockSlow] at hs
        case sem => simp [semP_pc hs, Pc.Checked]
        all_goals repeat' split at hs
        all_goals
          cases hs
          first
          | exact Pc.checked_of_atCall (afterLock_atCall ..)
          | simp [State.setPc, Pc.Checked]
      · exact muWaitWithDeadline_checked (hpc ▸ hc) hs
      · exact cvWaitWithDeadline_checked (hpc ▸ hok) (hpc ▸ hc) hs
      · exact Pc.checked_of_atCall hpc'

end Nsync.Mu
