import Nsync.Mu.Run

/-!
# The sleep and wake-up handshake

A waker first clears the `waiting` flag of a waiter and then posts its
semaphore.  A thread that sleeps although its flag is clear has a token or is
about to be posted.
-/

namespace Nsync.Mu

open Nsync.Lib

variable {T σ : Type}

namespace Pc

/-- The thread is in the P operation of one of the three wait loops. -/
def sleeping : Pc T → Bool
  | .lockSlow _ _ .sem => true
  | .muWait _ .sem => true
  | .cvWait _ .sem => true
  | _ => false

/-- The waiter whose flag the thread has cleared and whose semaphore it is about
to post. -/
def posting : Pc T → Option T
  | .unlockSlow _ _ (.wakeSem x _) => some x
  | .wakeWaiters _ (.sem x) => some x
  | _ => none

/-- The thread is in the loop that ends when its `waiting` flag is clear. -/
def inWaitLoop : Pc T → Bool
  | .lockSlow _ _ p =>
      match p with
      | .waitLoad | .sem => true
      | _ => false
  | .muWait _ p =>
      match p with
      | .loadWord | .evalCondition | .storeWaiting | .loadRemoveCount | .enqueue _ | .release _ =>
          false
      | _ => true
  | .cvWait _ p =>
      match p with
      | .storeWaiting | .loadMuWord | .enqueue _ | .loadRemoveCount _ | .storeWord _ => false
      | _ => true
  | _ => false

/-- A function is entered here, or goes on after a call. -/
def atCall : Pc T → Bool
  | .lockSlow _ _ p => p == .top
  | .muWait _ p => p == .evalCondition || p == .waitLoad
  | .cvWait _ p => p == .waitLoad
  | _ => true

theorem sleeping_of_atCall {p : Pc T} (h : p.atCall = true) : p.sleeping = false := by
  cases p with
  | lockSlow l k p => cases p <;> first | rfl | cases h
  | muWait l p => cases p <;> first | rfl | cases h
  | cvWait l p => cases p <;> first | rfl | cases h
  | _ => rfl

end Pc

variable [DecidableEq T] {E : Env σ} {s s' s₁ : State T σ} {t u : T}

/-- What a step of `u` can do to the waiter of another thread `t`. -/
inductive Touch (E : Env σ) (u t : T) (s s' : State T σ) : Prop where
  | none (hw : (s'.wtr t).waiting = (s.wtr t).waiting) (hs : (s'.wtr t).sem = (s.wtr t).sem)
      (hp : (s.pc u).posting ≠ some t)
  | clear (hs : (s'.wtr t).sem = (s.wtr t).sem) (hp : (s'.pc u).posting = some t)
  | post (hw : (s'.wtr t).waiting = (s.wtr t).waiting)
      (hs : (s'.wtr t).sem = E.semV (s.wtr t).sem)

omit [DecidableEq T] in
theorem Touch.of_wtr (hw : s'.wtr t = s.wtr t) (hp : (s.pc u).posting ≠ some t) :
    Touch E u t s s' :=
  .none (by rw [hw]) (by rw [hw]) hp

@[simp] theorem afterLock_wtr (s : State T σ) (t : T) (m : Mode) (k : LockCont) :
    (afterLock s t m k).wtr = s.wtr := by
  cases k <;> rfl

@[simp] theorem afterUnlock_wtr (s : State T σ) (t : T) (k : UnlockCont) :
    (afterUnlock s t k).wtr = s.wtr := by
  cases k <;> rfl

@[simp] theorem scanNext_wtr (s : State T σ) (t : T) (m : Mode) (k : UnlockCont) (sc : Scan T) :
    (scanNext s t m k sc).wtr = s.wtr := by
  unfold scanNext
  split <;> rfl

@[simp] theorem wakeNext_wtr (s : State T σ) (t : T) (m : Mode) (k : UnlockCont) (l : List T) :
    (wakeNext s t m k l).wtr = s.wtr := by
  cases l
  · exact afterUnlock_wtr s t k
  · rfl

@[simp] theorem wakeStart_wtr (s : State T σ) (t : T) (l : Wake T) :
    (wakeStart s t l).wtr = s.wtr := by
  unfold wakeStart
  split <;> rfl

theorem scanStep_wtr (m : Mode) (k : UnlockCont) (sc : Scan T) :
    (scanStep E s u m k sc).wtr = s.wtr := by
  have hend : ∀ p, (scanStep.scanEnd E s u m k sc p).wtr = s.wtr := by
    intro p
    unfold scanStep.scanEnd
    split
    · rfl
    · exact scanNext_wtr ..
  unfold scanStep
  repeat' split
  all_goals first | exact hend _ | rfl

theorem muUnlockSlow_touch {m : Mode} {k : UnlockCont} {p : UnlockSlowPc T}
    (hpc : s.pc u = .unlockSlow m k p) : Touch E u t s (muUnlockSlow E s u m k p) := by
  rcases p with _ | _ | _ | ⟨_, _ | _⟩ | _ | ⟨_, x, _ | _⟩ | ⟨_, _ | _⟩ | ⟨_, _ | _⟩ | ⟨x, wake⟩ |
      ⟨x, wake⟩ <;> simp only [muUnlockSlow]
  case wakeStore =>
    by_cases hx : t = x
    · subst hx
      exact .clear (by simp [State.setWtr, State.setPc, Waiter.setWaiting])
        (by simp [State.setPc, Pc.posting])
    · exact .of_wtr (by simp [State.setWtr, State.setPc, hx]) (by simp [hpc, Pc.posting])
  case wakeSem =>
    by_cases hx : t = x
    · subst hx
      exact .post (by simp [State.setWtr, Waiter.post]) (by simp [State.setWtr, Waiter.post])
    · exact .of_wtr (by simp [State.setWtr, hx]) (by simp [hpc, Pc.posting, Ne.symm hx])
  case scanRemove.cas =>
    split
    · by_cases hx : t = x
      · subst hx
        exact .none (by simp [State.setWtr, State.setPc, State.setDequeued, Waiter.removed])
          (by simp [State.setWtr, State.setPc, State.setDequeued, Waiter.removed])
          (by simp [hpc, Pc.posting])
      · exact .of_wtr (by simp [State.setWtr, State.setPc, State.setDequeued, hx])
          (by simp [hpc, Pc.posting])
    · exact .of_wtr rfl (by simp [hpc, Pc.posting])
  all_goals
    refine .of_wtr ?_ (by simp [hpc, Pc.posting])
    repeat' split
    all_goals first | rfl | simp [scanStep_wtr, scanAppend, State.setWord]

theorem wakeWaiters_touch {l : Wake T} {p : WakePc T} (hpc : s.pc u = .wakeWaiters l p) :
    Touch E u t s (wakeWaiters E s u l p) := by
  rcases p with _ | _ | ⟨_, _ | _⟩ | _ | x <;> simp only [wakeWaiters]
  case cas =>
    split
    · exact .of_wtr rfl (by simp [hpc, Pc.posting])
    · split
      · refine .none ?_ ?_ (by simp [hpc, Pc.posting]) <;> simp only <;> split <;> rfl
      · exact .of_wtr (by simp) (by simp [hpc, Pc.posting])
  case store =>
    split
    · exact .of_wtr rfl (by simp [hpc, Pc.posting])
    · next x rest hw =>
        by_cases hx : t = x
        · subst hx
          exact .clear (by simp [State.setWtr, State.setPc, Waiter.setWaiting])
            (by simp [State.setPc, Pc.posting])
        · exact .of_wtr (by simp [State.setWtr, State.setPc, hx]) (by simp [hpc, Pc.posting])
  case sem =>
    by_cases hx : t = x
    · subst hx
      exact .post (by simp [State.setWtr, Waiter.post]) (by simp [State.setWtr, Waiter.post])
    · exact .of_wtr (by simp [State.setWtr, hx]) (by simp [hpc, Pc.posting, Ne.symm hx])
  all_goals
    refine .of_wtr ?_ (by simp [hpc, Pc.posting])
    repeat' split
    all_goals first | rfl | simp [State.setWord]

/-- A signaller only counts the removals of the waiters that it selects. -/
theorem cvSignal_touch {l : Signal T} {p : SignalPc T} (hpc : s.pc u = .signal l p) :
    Touch E u t s (cvSignal s u l p) := by
  have hrem : ∀ (x : T) (w : T → Waiter), w = Function.update s.wtr x (s.wtr x).removed →
      (w t).waiting = (s.wtr t).waiting ∧ (w t).sem = (s.wtr t).sem := by
    rintro x w rfl
    by_cases hx : t = x
    · subst hx
      simp [Waiter.removed]
    · simp [hx]
  have hpost : (s.pc u).posting ≠ some t := by simp [hpc, Pc.posting]
  rcases p with _ | ⟨_ | _⟩ | ⟨_, x, _ | _⟩ | _ | ⟨_, x, _ | _⟩ | _ <;>
    simp only [cvSignal, signalDone]
  case removeFirst.cas =>
    split
    · split
      · exact .none (hrem x _ rfl).1 (hrem x _ rfl).2 hpost
      · exact .none (hrem x _ rfl).1 (hrem x _ rfl).2 hpost
    · exact .of_wtr rfl hpost
  case remove.cas =>
    split
    · exact .none (hrem x _ rfl).1 (hrem x _ rfl).2 hpost
    · exact .of_wtr rfl hpost
  all_goals
    refine .of_wtr ?_ hpost
    repeat' split
    all_goals rfl

/-- The functions that change no waiter but the thread's own. -/
theorem semP_wtr {p : Pc T} (ht : t ≠ u) (hs : semP s u p = some s') : s'.wtr t = s.wtr t := by
  unfold semP at hs
  split at hs <;> cases hs
  simp [State.setPc, State.setWtr, ht]

theorem muLock_wtr (ht : t ≠ u) (m : Mode) (b : Bool) (k : LockCont) (p : LockPc) :
    (muLock s u m b k p).wtr t = s.wtr t := by
  cases p <;> simp only [muLock] <;> repeat' split
  all_goals
    simp [startLockSlow, State.setPc, State.setWtr, State.setWord, State.acquired,
      State.setDequeued, ht]

theorem muLockSlow_wtr (ht : t ≠ u) {l : LockSlow} {k : LockCont} {p : LockSlowPc}
    (hs : muLockSlow s u l k p = some s') : s'.wtr t = s.wtr t := by
  rcases p with _ | _ | _ | _ | ⟨_ | _⟩ | _ | _ <;> simp only [muLockSlow] at hs
  case sem => exact semP_wtr ht hs
  all_goals repeat' split at hs
  all_goals
    cases hs
    simp [State.setPc, State.setWtr, State.setWord, State.acquired, State.setDequeued, ht]

theorem muUnlock_wtr (kind : UnlockKind) (k : UnlockCont) (p : UnlockPc) :
    (muUnlock s u kind k p).wtr t = s.wtr t := by
  cases p <;> simp only [muUnlock] <;> repeat' split
  all_goals simp [State.setPc, State.setWord]

theorem semWaitWithCancel_wtr {b : Bool} {f : Outcome → Pc T} {ch : Choice} (ht : t ≠ u)
    (hs : semWaitWithCancel s u b f ch = some s') : s'.wtr t = s.wtr t := by
  cases ch <;> simp only [semWaitWithCancel] at hs
  case run => exact semP_wtr ht hs
  all_goals
    split at hs <;> cases hs
    rfl

theorem muWaitWithDeadline_wtr (ht : t ≠ u) {l : MuWait} {ch : Choice} {p : MuWaitPc}
    (hs : muWaitWithDeadline E s u l ch p = some s') : s'.wtr t = s.wtr t := by
  rcases p with _ | _ | _ | _ | ⟨_ | _⟩ | ⟨_ | _⟩ | _ | _ | _ | _ | _ | _ | _ | _ | ⟨_, _ | _⟩ |
      _ | _ | _ | _ <;> simp only [muWaitWithDeadline] at hs
  case sem => exact semWaitWithCancel_wtr ht hs
  all_goals repeat' split at hs
  all_goals
    cases hs
    simp [startLockSlow, State.setPc, State.setWtr, State.setWord, State.acquired,
      State.setDequeued, ht]

theorem cvWaitWithDeadline_wtr (ht : t ≠ u) {l : CvWait} {ch : Choice} {p : CvWaitPc}
    (hs : cvWaitWithDeadline s u l ch p = some s') : s'.wtr t = s.wtr t := by
  rcases p with _ | _ | ⟨_ | _⟩ | _ | _ | _ | _ | _ | ⟨_ | _⟩ | _ | _ | ⟨_, _ | _⟩ | _ | _ | _ <;>
    simp only [cvWaitWithDeadline] at hs
  case sem => exact semWaitWithCancel_wtr ht hs
  all_goals repeat' split at hs
  all_goals
    cases hs
    simp [startLockSlow, State.setPc, State.setWtr, State.setCv, ht]

theorem debugState_wtr (l : Debug) (p : DebugPc) : (debugState s u l p).wtr t = s.wtr t := by
  rcases p with _ | ⟨_ | _⟩ | _ <;> simp only [debugState] <;> repeat' split
  all_goals rfl

theorem callStep_wtr {held : Option Mode} {c : Call σ} (hs : callStep s u held c = some s') :
    s'.wtr = s.wtr := by
  cases c <;> simp only [callStep] at hs
  case muWait | cvWait =>
    cases held <;> cases hs
    rfl
  case signal | debug =>
    cases hs
    rfl
  all_goals
    split at hs <;> cases hs
    rfl

/-- A step of `u` leaves the waiter of `t` alone, wakes it, or posts it. -/
theorem step_touch {a : Act σ} (ht : t ≠ u) (hs : step E u a s = some s') : Touch E u t s s' := by
  cases a with
  | post =>
      cases hs
      cases hp : decide ((s.pc u).posting = some t) with
      | false => exact .of_wtr (by simp [State.setWtr, ht]) (by simpa using hp)
      | true => exact .clear (by simp [State.setWtr, ht]) (by simpa [State.setWtr] using hp)
  | call c =>
      simp only [step] at hs
      split at hs
      · next held hpc =>
          exact .of_wtr (by rw [callStep_wtr hs]) (by simp [hpc, Pc.posting])
      · cases hs
  | step ch =>
      simp only [step] at hs
      cases hpc : s.pc u <;> simp only [hpc, Option.some.injEq] at hs
      case client | panicked => cases hs
      case lock => exact .of_wtr (by rw [← hs, muLock_wtr ht]) (by simp [hpc, Pc.posting])
      case lockSlow => exact .of_wtr (muLockSlow_wtr ht hs) (by simp [hpc, Pc.posting])
      case unlock => exact .of_wtr (by rw [← hs, muUnlock_wtr]) (by simp [hpc, Pc.posting])
      case unlockSlow => exact hs ▸ muUnlockSlow_touch hpc
      case muWait => exact .of_wtr (muWaitWithDeadline_wtr ht hs) (by simp [hpc, Pc.posting])
      case cvWait => exact .of_wtr (cvWaitWithDeadline_wtr ht hs) (by simp [hpc, Pc.posting])
      case signal => exact hs ▸ cvSignal_touch hpc
      case wakeWaiters => exact hs ▸ wakeWaiters_touch hpc
      case debug => exact .of_wtr (by rw [← hs, debugState_wtr]) (by simp [hpc, Pc.posting])

/-! ## Steps of the sleeper -/

/-- A step inside a call puts a thread to sleep only with its flag set, and takes
it out of a wait loop only with its flag clear. -/
structure OwnStep (t : T) (s s' : State T σ) : Prop where
  sleeps : (s'.pc t).sleeping = true → (s'.wtr t).waiting = true
  leaves : (s.pc t).inWaitLoop = true → (s'.pc t).inWaitLoop = false → (s.wtr t).waiting = false

theorem afterLock_atCall (s : State T σ) (t : T) (m : Mode) (k : LockCont) :
    ((afterLock s t m k).pc t).atCall = true := by
  cases k <;> simp [afterLock, State.setPc, Pc.atCall]

theorem afterUnlock_atCall (s : State T σ) (t : T) (k : UnlockCont) :
    ((afterUnlock s t k).pc t).atCall = true := by
  cases k <;> simp [afterUnlock, State.setPc, Pc.atCall]

theorem wakeStart_atCall (s : State T σ) (t : T) (l : Wake T) :
    ((wakeStart s t l).pc t).atCall = true := by
  unfold wakeStart
  split <;> simp [State.setPc, Pc.atCall]

omit [DecidableEq T] in
/-- Outside the wait loops only the new program counter matters. -/
theorem OwnStep.of_not_sleeping (hs' : (s'.pc t).sleeping = false)
    (hs : (s.pc t).inWaitLoop = false) : OwnStep t s s' where
  sleeps h := by rw [hs'] at h; cases h
  leaves h := by rw [hs] at h; cases h

theorem muUnlockSlow_atCall (m : Mode) (k : UnlockCont) (p : UnlockSlowPc T) :
    ((muUnlockSlow E s t m k p).pc t).atCall = true := by
  obtain ⟨q, hq, hcase⟩ := muUnlockSlow_goes (E := E) (s := s) (t := t) m k p
  rw [hq, Function.update_self]
  rcases hcase with rfl | rfl | ⟨p', rfl⟩
  · cases k <;> rfl
  · rfl
  · rfl

theorem cvSignal_atCall (l : Signal T) (p : SignalPc T) :
    ((cvSignal s t l p).pc t).atCall = true := by
  rcases p with _ | ⟨_ | _⟩ | ⟨_, _, _ | _⟩ | _ | ⟨_, _, _ | _⟩ | _ <;>
    simp only [cvSignal, signalDone] <;> repeat' split
  all_goals simp [State.setPc, Pc.atCall]

theorem wakeWaiters_atCall (l : Wake T) (p : WakePc T) :
    ((wakeWaiters E s t l p).pc t).atCall = true := by
  rcases p with _ | _ | ⟨_, _ | _⟩ | _ | _ <;> simp only [wakeWaiters] <;> repeat' split
  all_goals first | exact wakeStart_atCall .. | simp [State.setPc, Pc.atCall]

theorem semP_pc {p : Pc T} (hs : semP s t p = some s') : s'.pc t = p := by
  unfold semP at hs
  split at hs <;> cases hs
  simp [State.setPc, State.setWtr]

theorem semWaitWithCancel_pc {b : Bool} {f : Outcome → Pc T} {ch : Choice}
    (hs : semWaitWithCancel s t b f ch = some s') : ∃ o, s'.pc t = f o := by
  cases ch <;> simp only [semWaitWithCancel] at hs
  case run => exact ⟨_, semP_pc hs⟩
  all_goals
    split at hs <;> cases hs
    exact ⟨_, Function.update_self ..⟩

theorem muLockSlow_ownStep {l : LockSlow} {k : LockCont} {p : LockSlowPc}
    (hpc : s.pc t = .lockSlow l k p) (hs : muLockSlow s t l k p = some s') : OwnStep t s s' := by
  rcases p with _ | _ | _ | _ | ⟨_ | _⟩ | _ | _ <;> simp only [muLockSlow] at hs
  case sem =>
    have hpc' := semP_pc hs
    exact ⟨by simp [hpc', Pc.sleeping], by simp [hpc', Pc.inWaitLoop]⟩
  case waitLoad =>
    split at hs <;> cases hs
    · next hw => exact ⟨fun _ => hw, by simp [State.setPc, Pc.inWaitLoop]⟩
    · next hw => exact ⟨by simp [State.setPc, Pc.sleeping], fun _ _ => by simpa using hw⟩
  all_goals repeat' split at hs
  all_goals
    cases hs
    refine .of_not_sleeping ?_ (by simp [hpc, Pc.inWaitLoop])
    first
    | exact Pc.sleeping_of_atCall (afterLock_atCall ..)
    | simp [State.setPc, Pc.sleeping]

theorem muWaitWithDeadline_ownStep {l : MuWait} {ch : Choice} {p : MuWaitPc}
    (hpc : s.pc t = .muWait l p) (hs : muWaitWithDeadline E s t l ch p = some s') :
    OwnStep t s s' := by
  rcases p with _ | _ | _ | _ | ⟨_ | _⟩ | ⟨_ | _⟩ | _ | _ | _ | _ | _ | _ | _ | _ | ⟨_, _ | _⟩ |
      _ | _ | _ | _ <;> simp only [muWaitWithDeadline] at hs
  case sem =>
    obtain ⟨o, hpc'⟩ := semWaitWithCancel_pc hs
    cases o <;> exact ⟨by simp [hpc', Pc.sleeping], by simp [hpc', Pc.inWaitLoop]⟩
  case waitLoad =>
    split at hs
    · next hw =>
        split at hs <;> cases hs
        · exact ⟨fun _ => hw, by simp [State.setPc, Pc.inWaitLoop]⟩
        · exact ⟨fun _ => hw, by simp [State.setPc, Pc.inWaitLoop]⟩
    · next hw =>
        split at hs <;> cases hs
        all_goals
          exact ⟨by simp [startLockSlow, State.setPc, Pc.sleeping], fun _ _ => by simpa using hw⟩
  all_goals repeat' split at hs
  all_goals
    cases hs
    constructor
    · simp [State.setPc, Pc.sleeping]
    · simp [hpc, State.setPc, Pc.inWaitLoop]

theorem cvWaitWithDeadline_ownStep {l : CvWait} {ch : Choice} {p : CvWaitPc}
    (hpc : s.pc t = .cvWait l p) (hs : cvWaitWithDeadline s t l ch p = some s') :
    OwnStep t s s' := by
  rcases p with _ | _ | ⟨_ | _⟩ | _ | _ | _ | _ | _ | ⟨_ | _⟩ | _ | _ | ⟨_, _ | _⟩ | _ | _ | _ <;>
    simp only [cvWaitWithDeadline] at hs
  case sem =>
    obtain ⟨o, hpc'⟩ := semWaitWithCancel_pc hs
    cases o <;> exact ⟨by simp [hpc', Pc.sleeping], by simp [hpc', Pc.inWaitLoop]⟩
  case waitLoad =>
    split at hs
    · next hw =>
        split at hs <;> cases hs
        · exact ⟨fun _ => hw, by simp [State.setPc, Pc.inWaitLoop]⟩
        · exact ⟨fun _ => hw, by simp [State.setPc, Pc.inWaitLoop]⟩
    · next hw =>
        split at hs <;> cases hs
        all_goals
          exact ⟨by simp [startLockSlow, State.setPc, Pc.sleeping], fun _ _ => by simpa using hw⟩
  all_goals repeat' split at hs
  all_goals
    cases hs
    constructor
    · simp [State.setPc, Pc.sleeping]
    · simp [hpc, State.setPc, Pc.inWaitLoop]

theorem muLock_atCall (m : Mode) (b : Bool) (k : LockCont) (p : LockPc) :
    ((muLock s t m b k p).pc t).atCall = true := by
  cases p <;> simp only [muLock] <;> repeat' split
  all_goals first | exact afterLock_atCall .. | simp [startLockSlow, State.setPc, Pc.atCall]

theorem muUnlock_atCall (kind : UnlockKind) (k : UnlockCont) (p : UnlockPc) :
    ((muUnlock s t kind k p).pc t).atCall = true := by
  cases p <;> simp only [muUnlock] <;> repeat' split
  all_goals first | exact afterUnlock_atCall .. | simp [State.setPc, Pc.atCall]

theorem debugState_atCall (l : Debug) (p : DebugPc) :
    ((debugState s t l p).pc t).atCall = true := by
  rcases p with _ | ⟨_ | _⟩ | _ <;> simp only [debugState] <;> repeat' split
  all_goals simp [State.setPc, Pc.atCall]

/-- A step inside a call is one of a wait, or ends where a function is entered or
goes on. -/
theorem step_atCall {ch : Choice} (hs : step E t (.step ch) s = some s') :
    (∃ l k p, s.pc t = .lockSlow l k p ∧ muLockSlow s t l k p = some s') ∨
    (∃ l p, s.pc t = .muWait l p ∧ muWaitWithDeadline E s t l ch p = some s') ∨
    (∃ l p, s.pc t = .cvWait l p ∧ cvWaitWithDeadline s t l ch p = some s') ∨
    (s.pc t).inWaitLoop = false ∧ (s'.pc t).atCall = true := by
  simp only [step] at hs
  cases hpc : s.pc t <;> simp only [hpc, Option.some.injEq] at hs
  case client | panicked => cases hs
  case lockSlow l k p => exact Or.inl ⟨l, k, p, rfl, hs⟩
  case muWait l p => exact Or.inr (Or.inl ⟨l, p, rfl, hs⟩)
  case cvWait l p => exact Or.inr (Or.inr (Or.inl ⟨l, p, rfl, hs⟩))
  all_goals refine Or.inr (Or.inr (Or.inr ⟨rfl, hs ▸ ?_⟩))
  case lock => exact muLock_atCall ..
  case unlock => exact muUnlock_atCall ..
  case unlockSlow => exact muUnlockSlow_atCall ..
  case signal => exact cvSignal_atCall ..
  case wakeWaiters => exact wakeWaiters_atCall ..
  case debug => exact debugState_atCall ..

theorem step_ownStep {ch : Choice} (hs : step E t (.step ch) s = some s') : OwnStep t s s' := by
  rcases step_atCall hs with ⟨l, k, p, hpc, hs⟩ | ⟨l, p, hpc, hs⟩ | ⟨l, p, hpc, hs⟩ | ⟨hpc, hpc'⟩
  · exact muLockSlow_ownStep hpc hs
  · exact muWaitWithDeadline_ownStep hpc hs
  · exact cvWaitWithDeadline_ownStep hpc hs
  · exact .of_not_sleeping (Pc.sleeping_of_atCall hpc') hpc

/-! ## The other threads do not move -/

theorem Moves.pc_of_ne {q : Pc T} (h : Moves t q s s') (hu : u ≠ t) : s'.pc u = s.pc u := by
  obtain ⟨p, hp, -⟩ := h
  rw [hp, Function.update_of_ne hu]

theorem afterLock_pc_of_ne (hu : u ≠ t) (m : Mode) (k : LockCont) :
    (afterLock s t m k).pc u = s.pc u := by
  cases k <;> exact Function.update_of_ne hu ..

theorem muLock_pc_of_ne (hu : u ≠ t) (m : Mode) (b : Bool) (k : LockCont) (p : LockPc) :
    (muLock s t m b k p).pc u = s.pc u := by
  cases p <;> simp only [muLock] <;> repeat' split
  all_goals first | exact afterLock_pc_of_ne hu .. | exact Function.update_of_ne hu ..

theorem muLockSlow_pc_of_ne (hu : u ≠ t) {l : LockSlow} {k : LockCont} {p : LockSlowPc}
    (hs : muLockSlow s t l k p = some s') : s'.pc u = s.pc u := by
  rcases p with _ | _ | _ | _ | ⟨_ | _⟩ | _ | _ <;> simp only [muLockSlow] at hs
  case sem =>
    unfold semP at hs
    split at hs <;> cases hs
    exact Function.update_of_ne hu ..
  all_goals repeat' split at hs
  all_goals
    cases hs
    first | exact afterLock_pc_of_ne hu .. | exact Function.update_of_ne hu ..

theorem muWaitWithDeadline_pc_of_ne (hu : u ≠ t) {l : MuWait} {ch : Choice} {p : MuWaitPc}
    (hs : muWaitWithDeadline E s t l ch p = some s') : s'.pc u = s.pc u := by
  rcases p with _ | _ | _ | _ | ⟨_ | _⟩ | ⟨_ | _⟩ | _ | _ | _ | _ | _ | _ | _ | _ | ⟨_, _ | _⟩ |
      _ | _ | _ | _ <;> simp only [muWaitWithDeadline] at hs
  case sem =>
    cases ch <;> simp only [semWaitWithCancel, semP] at hs <;> split at hs <;> cases hs
    all_goals exact Function.update_of_ne hu ..
  all_goals repeat' split at hs
  all_goals
    cases hs
    exact Function.update_of_ne hu ..

theorem step_pc_of_ne {a : Act σ} (hu : u ≠ t) (hs : step E t a s = some s') :
    s'.pc u = s.pc u := by
  cases a with
  | post =>
      cases hs
      rfl
  | call c =>
      simp only [step] at hs
      split at hs
      · next held hpc =>
          obtain ⟨p, hp, -⟩ := callStep_op hpc hs
          rw [hp, Function.update_of_ne hu]
      · cases hs
  | step ch =>
      simp only [step] at hs
      cases hpc : s.pc t <;> simp only [hpc, Option.some.injEq] at hs
      case client | panicked => cases hs
      case lock => exact hs ▸ muLock_pc_of_ne hu ..
      case lockSlow => exact muLockSlow_pc_of_ne hu hs
      case unlock => exact hs ▸ (muUnlock_moves ..).pc_of_ne hu
      case unlockSlow => exact hs ▸ (muUnlockSlow_moves ..).pc_of_ne hu
      case muWait => exact muWaitWithDeadline_pc_of_ne hu hs
      case cvWait => exact (cvWaitWithDeadline_moves hs).pc_of_ne hu
      case signal => exact hs ▸ (cvSignal_moves ..).pc_of_ne hu
      case wakeWaiters => exact hs ▸ (wakeWaiters_moves ..).pc_of_ne hu
      case debug => exact hs ▸ (debugState_moves ..).pc_of_ne hu

/-! ## The handshake in runs -/

/-- A step of the system, or, with no action, a token that a thread takes from its
semaphore outside this system, as `nsync_wait_n` does. -/
def stepOrTake (E : Env σ) (i : T × Option (Act σ)) (s : State T σ) : Option (State T σ) :=
  match i.2 with
  | some a => step E i.1 a s
  | none =>
      match s.pc i.1 with
      | .client held => semP s i.1 (.client held)
      | _ => none

/-- A thread that sleeps although its flag is clear has a token or is about to be
posted. -/
def Awaited (t : T) (s : State T σ) : Prop :=
  (s.pc t).sleeping = true → (s.wtr t).waiting = false →
    0 < (s.wtr t).sem ∨ ∃ u, u ≠ t ∧ (s.pc u).posting = some t

theorem Awaited.step_self {a : Act σ} (hV : ∀ n, 0 < E.semV n) (hs : step E t a s = some s') :
    Awaited t s' := by
  intro hsl hw
  cases a with
  | post =>
      cases hs
      exact Or.inl (by simpa [State.setWtr, Waiter.post] using hV _)
  | call c =>
      simp only [step] at hs
      split at hs
      · next held hpc =>
          cases c <;> simp only [callStep] at hs
          case muWait | cvWait =>
            cases held <;> cases hs
            simp [State.setPc, Pc.sleeping] at hsl
          case setProt =>
            split at hs <;> cases hs
            simp [hpc, Pc.sleeping] at hsl
          case signal | debug =>
            cases hs
            simp [State.setPc, Pc.sleeping] at hsl
          all_goals
            split at hs <;> cases hs
            simp [State.setPc, Pc.sleeping] at hsl
      · cases hs
  | step ch =>
      rw [(step_ownStep hs).sleeps hsl] at hw
      cases hw

theorem Awaited.step_other {a : Act σ} (hV : ∀ n, 0 < E.semV n) (hu : u ≠ t)
    (h : Awaited t s) (hs : step E u a s = some s') : Awaited t s' := by
  intro hsl hw
  rw [step_pc_of_ne hu.symm hs] at hsl
  rcases step_touch hu.symm hs with ⟨hw', hsem, hp⟩ | ⟨-, hp⟩ | ⟨-, hsem⟩
  · rw [hw'] at hw
    rcases h hsl hw with h | ⟨v, hv, hpv⟩
    · exact Or.inl (by rwa [hsem])
    · have hvu : v ≠ u := by
        rintro rfl
        exact hp hpv
      exact Or.inr ⟨v, hv, by rw [step_pc_of_ne hvu hs]; exact hpv⟩
  · exact Or.inr ⟨u, hu, hp⟩
  · exact Or.inl (by rw [hsem]; exact hV _)

/-- A token taken outside the system is taken by a thread that is not asleep. -/
theorem Awaited.take {held : Option Mode} (h : Awaited t s) (hpc : s.pc u = .client held)
    (hs : semP s u (.client held) = some s') : Awaited t s' := by
  intro hsl hw
  have hpc' : s'.pc = s.pc := by
    unfold semP at hs
    split at hs <;> cases hs
    exact (congrArg (Function.update s.pc u) hpc.symm).trans (Function.update_eq_self u s.pc)
  rw [hpc'] at hsl ⊢
  have hne : t ≠ u := by
    rintro rfl
    simp [hpc, Pc.sleeping] at hsl
  rw [semP_wtr hne hs] at hw ⊢
  exact h hsl hw

theorem awaited_stepOrTake {i : T × Option (Act σ)} (hV : ∀ n, 0 < E.semV n) (h : Awaited t s)
    (hs : stepOrTake E i s = some s') : Awaited t s' := by
  obtain ⟨u, a | _⟩ := i
  · simp only [stepOrTake] at hs
    split at hs
    · next held hpc => exact h.take hpc hs
    · cases hs
  · rcases eq_or_ne u t with rfl | hu
    · exact .step_self hV hs
    · exact h.step_other hV hu hs

/-- A wait loop is left only by its own thread, and only with the flag clear. -/
theorem waiting_of_leaves {i : T × Option (Act σ)} (hs : stepOrTake E i s = some s')
    (h : (s.pc t).inWaitLoop = true) (h' : (s'.pc t).inWaitLoop = false) :
    (s.wtr t).waiting = false := by
  have hmoved : s'.pc t ≠ s.pc t := by
    intro heq
    rw [heq, h] at h'
    cases h'
  obtain ⟨u, a | a⟩ := i
  · simp only [stepOrTake] at hs
    split at hs
    · next held hpc =>
        rcases eq_or_ne t u with rfl | ht
        · exact (hmoved ((semP_pc hs).trans hpc.symm)).elim
        · unfold semP at hs
          split at hs <;> cases hs
          exact (hmoved (Function.update_of_ne ht ..)).elim
    · cases hs
  · rcases eq_or_ne t u with rfl | ht
    · cases a with
      | post =>
          cases hs
          exact (hmoved rfl).elim
      | call c =>
          simp only [stepOrTake, step] at hs
          split at hs
          · next held hpc => simp [hpc, Pc.inWaitLoop] at h
          · cases hs
      | step ch => exact (step_ownStep hs).leaves h h'
    · exact (hmoved (step_pc_of_ne ht hs)).elim

/-- With a counting or a binary semaphore, a thread that is blocked although its
flag is clear is about to be posted by another one, and no wait loop is left
while the flag is set. -/
theorem blocked_is_posted_and_loops_recheck
    (hV : (∀ n, E.semV n = n + 1) ∨ ∀ n, E.semV n = 1) {x : σ}
    (h : Reach (stepOrTake E) (fun _ _ => True) (initial x) s) (t : T) :
    ((s.pc t).sleeping = true → (s.wtr t).sem = 0 → (s.wtr t).waiting = false →
      ∃ u, u ≠ t ∧ (s.pc u).posting = some t) ∧
    ∀ i s', stepOrTake E i s = some s' → (s.pc t).inWaitLoop = true →
      (s'.pc t).inWaitLoop = false → (s.wtr t).waiting = false := by
  have hpos : ∀ n, 0 < E.semV n := by
    intro n
    rcases hV with hV | hV <;> simp [hV]
  have hinit : Awaited t (initial x : State T σ) := by
    intro hsl
    cases hsl
  have hawaited : Awaited t s :=
    h.invariant hinit fun i s₁ s₂ _ ha _ hs => awaited_stepOrTake hpos ha hs
  refine ⟨fun hsl hsem hw => ?_, fun i s' hs => waiting_of_leaves hs⟩
  rcases hawaited hsl hw with hpos | hposter
  · omega
  · exact hposter

/-- Thread 1 queues itself behind the holder of the mutex and sleeps; the holder
releases the mutex and stops between the store to the flag and the post. -/
def postingRun : List (Fin 2 × Act Bool) :=
  [(0, .call (.lock .writer))] ++ goOn 0 1 ++ [(1, .call (.lock .writer))] ++ goOn 1 8 ++
  [(0, .call (.unlock .unlock))] ++ goOn 0 11

theorem blocked_is_posted_postingRun : ∃ s : State (Fin 2) Bool,
    Reach (stepOrTake flagEnv) (fun _ _ => True) (initial false) s ∧ (s.pc 1).sleeping = true ∧
    (s.wtr 1).sem = 0 ∧ (s.wtr 1).waiting = false ∧
    ∃ u, u ≠ 1 ∧ (s.pc u).posting = some 1 := by
  obtain ⟨s, hs, hf⟩ := Reach.exists_of_exec_all (stepOrTake flagEnv) (initial false)
    (postingRun.map fun i => (i.1, some i.2)) (fun s => decide ((s.pc 1).sleeping = true ∧
      (s.wtr 1).sem = 0 ∧ (s.wtr 1).waiting = false)) (by decide +kernel)
  obtain ⟨hsl, hsem, hw⟩ := of_decide_eq_true hf
  have hposted := (blocked_is_posted_and_loops_recheck (Or.inl fun _ => rfl) hs 1).1
  exact ⟨s, hs, hsl, hsem, hw, hposted hsl hsem hw⟩

end Nsync.Mu
