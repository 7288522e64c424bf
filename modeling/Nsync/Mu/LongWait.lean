import Nsync.Mu.WriterWaiting

/-!
# Long waits

A thread that has been woken often without acquiring sets `MU_LONG_WAIT`.  While
the bit is set, it is the bit of a thread that still waits, and only threads that
have been woken from the queue acquire.
-/

namespace Nsync.Mu

open Nsync.Lib

variable {T σ : Type}

/-! ## History -/

/-- How often a thread has been woken in its current call of
`nsync_mu_lock_slow_`, and whether it has set `MU_LONG_WAIT` since it last
acquired the mutex. -/
structure LongHistory (T : Type) where
  woken : T → ℕ
  hasSet : T → Bool

def LongHistory.empty : LongHistory T := ⟨fun _ => 0, fun _ => false⟩

/-- The wakeups in the current call of `nsync_mu_lock_slow_`, after a step from
`q` to `p`; there were `n` before it. -/
def Pc.wakeups (n : ℕ) (q p : Pc T) : ℕ :=
  match q, p with
  | .lockSlow _ _ .waitLoad, .lockSlow _ _ .top => n + 1
  | .lockSlow _ _ _, .lockSlow _ _ _ => n
  | _, _ => 0

/-- The thread has just queued itself with `MU_LONG_WAIT`. -/
def Pc.setsLong : Pc T → Bool
  | .lockSlow l _ .insert => l.longWait
  | _ => false

def Pc.Acquires (q p : Pc T) : Prop := q.lockRole = none ∧ p.lockRole ≠ none

instance (q p : Pc T) : Decidable (q.Acquires p) := inferInstanceAs (Decidable (_ ∧ _))

variable [DecidableEq T]

def LongHistory.next (t : T) (s s' : State T σ) (h : LongHistory T) : LongHistory T where
  woken := Function.update h.woken t ((s.pc t).wakeups (h.woken t) (s'.pc t))
  hasSet := Function.update h.hasSet t
    (!decide ((s.pc t).Acquires (s'.pc t)) && ((s'.pc t).setsLong || h.hasSet t))

/-! ## How a thread comes to `nsync_mu_lock_slow_` -/

section

variable {E : Env σ} {C : WaitCondition → Prop} {s s' : State T σ} {t : T} {act : Act σ}
  {l' : LockSlow} {k' : LockCont} {p' : LockSlowPc}

/-- One step inside `nsync_mu_lock_slow_`: a wakeup is counted, or the counts
stay. -/
def LockSlow.Goes (l : LockSlow) (p : LockSlowPc) (l' : LockSlow) (p' : LockSlowPc) : Prop :=
  (p = .waitLoad ∧ p' = .top ∧ l'.waitCount = (l.waitCount + 1) % 2 ^ 32 ∧
    l'.longWait = (l.longWait || l'.waitCount == longWaitThreshold)) ∨
  (¬ (p = .waitLoad ∧ p' = .top) ∧ l'.waitCount = l.waitCount ∧ l'.longWait = l.longWait)

theorem muLockSlow_goes {l : LockSlow} {k : LockCont} {p : LockSlowPc}
    (hs : muLockSlow s t l k p = some s') (hp' : s'.pc t = .lockSlow l' k' p') :
    l.Goes p l' p' := by
  have hset : ∀ {s₁ : State T σ} {q : Pc T} {P : Prop},
      (s₁.setPc t q).pc t = .lockSlow l' k' p' → (q = .lockSlow l' k' p' → P) → P := by
    intro s₁ q P h hq
    rw [State.setPc_self] at h
    exact hq h
  rcases p with _ | _ | _ | _ | ⟨_ | _⟩ | _ | _ <;> simp only [muLockSlow, semP] at hs
  case acquire old =>
    split at hs <;> cases hs
    · cases k <;> exact hset hp' (by rintro ⟨⟩)
    · refine hset hp' fun h => ?_
      cases h
      exact Or.inr ⟨by simp, rfl, rfl⟩
  case waitLoad =>
    split at hs <;> cases hs
    · refine hset hp' fun h => ?_
      cases h
      exact Or.inr ⟨by simp, rfl, rfl⟩
    · refine hset hp' fun h => ?_
      cases h
      exact Or.inl ⟨rfl, rfl, rfl, rfl⟩
  all_goals repeat' split at hs
  all_goals
    cases hs <;>
    · refine hset hp' fun h => ?_
      cases h
      exact Or.inr ⟨by simp, rfl, rfl⟩

theorem callStep_lockSlow {held : Option Mode} {c : Call σ} (hpc : s.pc t = .client held)
    (hs : callStep s t held c = some s') : s'.pc t ≠ .lockSlow l' k' p' := by
  cases c <;> simp only [callStep] at hs
  case muWait | cvWait =>
    cases held <;> cases hs
    rw [State.setPc_self]
    rintro ⟨⟩
  case signal | debug =>
    cases hs
    rw [State.setPc_self]
    rintro ⟨⟩
  case setProt =>
    split at hs <;> cases hs
    intro h
    cases hpc.symm.trans h
  all_goals
    split at hs <;> cases hs
    rw [State.setPc_self]
    rintro ⟨⟩

/-- The thread has not been woken in its call of `nsync_mu_lock_slow_`. -/
def LockSlow.Fresh (l : LockSlow) : Prop := l.waitCount = 0 ∧ l.longWait = false

theorem startLockSlow_fresh {s₁ : State T σ} {m : Mode} {b : Bool} {k : LockCont}
    (hp' : (startLockSlow s₁ t m b k).pc t = .lockSlow l' k' p') : l'.Fresh := by
  rw [startLockSlow, State.setPc_self] at hp'
  cases hp'
  exact ⟨rfl, rfl⟩

theorem afterLock_ne_lockSlow {s₁ : State T σ} {m : Mode} {k : LockCont} :
    (afterLock s₁ t m k).pc t ≠ .lockSlow l' k' p' := by
  cases k <;> simp [afterLock, State.setPc]

theorem muLock_enters {m : Mode} {b : Bool} {k : LockCont} {p : LockPc}
    (hp' : (muLock s t m b k p).pc t = .lockSlow l' k' p') : l'.Fresh := by
  cases p <;> simp only [muLock] at hp' <;> repeat' split at hp'
  all_goals
    first
    | (rw [State.setPc_self] at hp'; cases hp')
    | exact startLockSlow_fresh hp'
    | exact (afterLock_ne_lockSlow hp').elim

theorem semWait_ne_lockSlow {b : Bool} {f : Outcome → Pc T} {ch : Choice}
    (hf : ∀ o, f o ≠ .lockSlow l' k' p') (hs : semWaitWithCancel s t b f ch = some s') :
    s'.pc t ≠ .lockSlow l' k' p' := by
  cases ch <;> simp only [semWaitWithCancel, semP] at hs <;> split at hs <;> cases hs
  all_goals
    rw [State.setPc_self]
    exact hf _

theorem muWait_enters {l : MuWait} {ch : Choice} {p : MuWaitPc}
    (hs : muWaitWithDeadline E s t l ch p = some s') (hp' : s'.pc t = .lockSlow l' k' p') :
    l'.Fresh := by
  rcases p with _ | _ | _ | _ | ⟨_ | _⟩ | ⟨_ | _⟩ | _ | _ | _ | _ | _ | _ | _ | _ | ⟨_, _ | _⟩ |
      _ | _ | _ | _ <;>
    simp only [muWaitWithDeadline] at hs
  case sem =>
    refine (semWait_ne_lockSlow (fun o => ?_) hs hp').elim
    split <;> rintro ⟨⟩
  all_goals repeat' split at hs
  all_goals
    cases hs
    first
    | (rw [State.setPc_self] at hp'; cases hp')
    | exact startLockSlow_fresh hp'

theorem cvWait_enters {l : CvWait} {ch : Choice} {p : CvWaitPc}
    (hs : cvWaitWithDeadline s t l ch p = some s') (hp' : s'.pc t = .lockSlow l' k' p') :
    l'.Fresh := by
  rcases p with _ | _ | ⟨_ | _⟩ | _ | _ | _ | _ | _ | ⟨_ | _⟩ | _ | _ | ⟨_, _ | _⟩ | _ | _ | _ <;>
    simp only [cvWaitWithDeadline] at hs
  case sem => exact (semWait_ne_lockSlow (fun o => by simp) hs hp').elim
  all_goals repeat' split at hs
  all_goals
    cases hs
    first
    | (rw [State.setPc_self] at hp'; cases hp')
    | exact startLockSlow_fresh hp'

theorem Moves.ne_lockSlow {q : Pc T} (h : Moves t q s s') (hq : q.op = .signal ∨ q.op = .debug) :
    s'.pc t ≠ .lockSlow l' k' p' := by
  obtain ⟨p, hp, hnext⟩ := h
  rw [hp, Function.update_self]
  rintro rfl
  have hop : k'.op = q.op := hnext
  rcases hq with hq | hq <;> rw [hq] at hop <;> cases k' <;> cases hop

theorem UnlockSlowGoes.ne_lockSlow {m : Mode} {k : UnlockCont} (h : UnlockSlowGoes t m k s s') :
    s'.pc t ≠ .lockSlow l' k' p' := by
  obtain ⟨q, hq, hcase⟩ := h
  rw [hq, Function.update_self]
  rintro rfl
  rcases hcase with hk | hk | ⟨p', hk⟩
  · cases k <;> cases hk
  · cases hk
  · cases hk

/-- A thread in `nsync_mu_lock_slow_` was there before, or has just entered and
has not been woken. -/
theorem step_lockSlow (hs : step E t act s = some s') (hp' : s'.pc t = .lockSlow l' k' p') :
    (∃ l k p, s.pc t = .lockSlow l k p ∧ l.Goes p l' p') ∨
      (∀ l k p, s.pc t ≠ .lockSlow l k p) ∧ l'.Fresh := by
  cases act with
  | post =>
      cases hs
      refine Or.inl ⟨l', k', p', hp', Or.inr ⟨?_, rfl, rfl⟩⟩
      rintro ⟨h, h'⟩
      cases h.symm.trans h'
  | call c =>
      simp only [step] at hs
      split at hs
      · next held hpc => exact (callStep_lockSlow hpc hs hp').elim
      · cases hs
  | step ch =>
      simp only [step] at hs
      cases hpc : s.pc t <;> simp only [hpc, Option.some.injEq] at hs
      case lockSlow l k p => exact Or.inl ⟨_, _, _, rfl, muLockSlow_goes hs hp'⟩
      case client | panicked => cases hs
      all_goals refine Or.inr ⟨by simp, ?_⟩
      case lock m b k p =>
        subst hs
        exact muLock_enters hp'
      case muWait l p => exact muWait_enters hs hp'
      case cvWait l p => exact cvWait_enters hs hp'
      case unlock kind k p =>
        subst hs
        cases p <;> simp only [muUnlock, afterUnlock_eq] at hp' <;> repeat' split at hp'
        all_goals
          rw [State.setPc_self] at hp'
          cases k <;> cases hp'
      case unlockSlow m k p =>
        subst hs
        exact ((muUnlockSlow_goes m k p).ne_lockSlow hp').elim
      case signal l p =>
        subst hs
        exact ((cvSignal_moves l p).ne_lockSlow (Or.inl rfl) hp').elim
      case wakeWaiters l p =>
        subst hs
        exact ((wakeWaiters_moves l p).ne_lockSlow (Or.inl rfl) hp').elim
      case debug l p =>
        subst hs
        exact ((debugState_moves l p).ne_lockSlow (Or.inr rfl) hp').elim

end

/-! ## The invariant -/

structure LongOk (s : State T σ) (h : LongHistory T) : Prop where
  count : ∀ t l k p, s.pc t = .lockSlow l k p → l.waitCount = h.woken t % 2 ^ 32 ∧
    (l.longWait = true → longWaitThreshold ≤ h.woken t)
  set : (view s.word).longWait = true → ∃ t, (s.pc t).longWaiter = true ∧ h.hasSet t = true

section

variable {E : Env σ} {C : WaitCondition → Prop} {s s' : State T σ} {t : T} {act : Act σ}
  {h : LongHistory T} {loc loc' : T → Loc T}

theorem LongOk.step_count (hl : LongOk s h) (hs : step E t act s = some s') {u : T} {l' : LockSlow}
    {k' : LockCont} {p' : LockSlowPc} (hp' : s'.pc u = .lockSlow l' k' p') :
    l'.waitCount = (h.next t s s').woken u % 2 ^ 32 ∧
      (l'.longWait = true → longWaitThreshold ≤ (h.next t s s').woken u) := by
  rcases eq_or_ne u t with rfl | hut
  · simp only [LongHistory.next, Function.update_self, hp']
    rcases step_lockSlow hs hp' with ⟨l, k, p, hp, hgoes⟩ | ⟨hno, hfresh⟩
    · obtain ⟨hcount, hlong⟩ := hl.count u l k p hp
      rw [hp]
      rcases hgoes with ⟨rfl, rfl, hc, hw⟩ | ⟨hnot, hc, hw⟩
      · simp only [Pc.wakeups]
        refine ⟨by rw [hc, hcount]; omega, fun hw' => ?_⟩
        rw [hw, Bool.or_eq_true, beq_iff_eq] at hw'
        rcases hw' with hw' | hw'
        · exact (hlong hw').trans (Nat.le_succ _)
        · -- the counter is the number of wakeups, up to its width
          have hmod : (h.woken u + 1) % 2 ^ 32 = longWaitThreshold := by
            rw [← hw', hc, hcount]
            omega
          exact hmod ▸ Nat.mod_le _ _
      · have hsame : Pc.wakeups (T := T) (h.woken u) (.lockSlow l k p) (.lockSlow l' k' p') =
            h.woken u := by
          cases p <;> cases p' <;> first | rfl | exact (hnot ⟨rfl, rfl⟩).elim
        rw [hsame, hc, hw]
        exact ⟨hcount, hlong⟩
    · have hzero : (s.pc u).wakeups (h.woken u) (.lockSlow l' k' p') = 0 := by
        cases hp : s.pc u
        case lockSlow l k p => exact (hno l k p hp).elim
        all_goals rfl
      rw [hzero, hfresh.1, hfresh.2]
      exact ⟨rfl, nofun⟩
  · rw [step_pc_of_ne hut hs] at hp'
    simpa only [LongHistory.next, Function.update_of_ne hut] using hl.count u l' k' p' hp'

variable [Fintype T]

omit [DecidableEq T] in
theorem LockInv.longWait_hold {a : AState T σ} (hi : LockInv a) {old : Word}
    (ht : (a.th t).spin = .hold old) :
    (a.th t).lock ≠ none ∧ a.v.longWait = (view old).longWait := by
  refine ⟨by simp [((hi.wf t).hold old ht).1], ?_⟩
  rw [(hi.hold t old ht).1]
  rfl

theorem LongOk.step_set (hl : LongOk s h) (hg : Good E C s loc)
    (hstep : AStep E C t (s.abs loc) (s'.abs loc')) (hop : (s.pc t).op ≠ .debug)
    (hs : step E t act s = some s') (hw : (view s'.word).longWait = true) :
    ∃ u, (s'.pc u).longWaiter = true ∧ (h.next t s s').hasSet u = true := by
  rcases hstep.long_cases (Pc.spinRole_ne_dbg hop) (fun old => hg.inv.lock.longWait_hold) hw with
    ⟨hw₀, hself⟩ | ⟨hins, hlong⟩
  · obtain ⟨u, hu, hset⟩ := hl.set hw₀
    rcases eq_or_ne u t with rfl | hut
    · obtain ⟨hlong, hlock⟩ := hself hu
      refine ⟨u, hlong, ?_⟩
      have hno : ¬ (s.pc u).Acquires (s'.pc u) := by
        rintro ⟨hn, hn'⟩
        rcases hlock hn with hn'' | htr
        · exact hn' hn''
        · -- a long waiter is not in a wait for a condition
          have htr : (s.pc u).trying = true := htr
          cases hpc : s.pc u <;> rw [hpc] at hu htr <;> first | cases htr | cases hu
      simp [LongHistory.next, hno, hset]
    · exact ⟨u, by rw [step_pc_of_ne hut hs, hu], by simp [LongHistory.next, hut, hset]⟩
  · refine ⟨t, hlong, ?_⟩
    have hlong : (s'.pc t).longWaiter = true := hlong
    have hins : (s'.pc t).spinRole = .ins := hins
    obtain ⟨l, k, hpc⟩ : ∃ l k, s'.pc t = .lockSlow l k .insert := by
      cases hpc : s'.pc t <;> rw [hpc] at hlong hins <;> try cases hlong
      next l k p => cases p <;> first | exact ⟨l, k, rfl⟩ | cases hins
    rw [hpc] at hlong
    have hno : ¬ (s.pc t).Acquires (.lockSlow l k .insert) := fun hacq => hacq.2 rfl
    simp only [LongHistory.next, Function.update_self, hpc, hno, Pc.setsLong]
    simpa [Pc.longWaiter] using Or.inl hlong

/-- Whoever acquires while `MU_LONG_WAIT` is set has been woken from the queue. -/
theorem AStep.deq_of_acquires {a a' : AState T σ} (hs : AStep E C t a a') (hi : AInv E C a)
    (hlk : (a.th t).lock = none) (hlk' : (a'.th t).lock ≠ none) (hw : a.v.longWait = true) :
    a.deq t = true := by
  cases hs with
  | acquire m clear hl hsp hph hv =>
      cases clear with
      | false =>
          cases m <;> simp_all [View.CanAcquire]
      | true =>
          have hc := hi.place.compat t
          rw [hph] at hc
          exact (hi.place.deq t).mpr (Or.inr hc)
  | tryAcquire old hl hsp htr hv hwl hn hlw => simp [hw] at hlw
  | tryDone m old hsp => exact ((hi.lock.longWait_hold hsp).1 hlk).elim
  | grab m testing hl => simp [hlk] at hl
  | retake _ _ _ hp | next hp => cases hp <;> simp_all
  | stutter | dequeue | wake | setWriterWaiting | select | cvWake | mutate => exact (hlk' hlk).elim
  | _ => simp_all

end

/-! ## Runs -/

section

variable [Fintype T] {E : Env σ} {s s' : State T σ} {t : T} {act : Act σ} {h : LongHistory T} {y : σ}

/-- The states that regular runs reach, with the history of long waits. -/
def LongRecorded (E : Env σ) (y : σ) : State T σ × LongHistory T → Prop :=
  Reach (withHistory (fun (i : T × Act σ) s => step E i.1 i.2 s) fun i s s' h => h.next i.1 s s')
    (fun i p => Regular i.1 i.2 p.1) (initial y, LongHistory.empty)

theorem LongRecorded.reachable (hr : LongRecorded E y (s, h)) : Reachable E Regular y s :=
  Reach.forget_history hr

theorem LongRecorded.ok (hr : LongRecorded E y (s, h)) : LongOk s h := by
  refine Reach.invariant hr (I := fun p => LongOk p.1 p.2)
    ⟨fun t l k p hp => by simp [initial] at hp, fun hw => ?_⟩ ?_
  · simp [initial, view] at hw
  · rintro i ⟨s₁, h₁⟩ p hr₁ hl hP hs
    obtain ⟨s₂, hs₂, rfl⟩ := Option.map_eq_some_iff.mp hs
    have hreach := LongRecorded.reachable hr₁
    obtain ⟨loc, loc', hg, -, hstep⟩ := hreach.step_of_regular hP hs₂
    have hop := (hreach.good_of_noDebug (C := fun _ => True) fun _ a _ hP =>
      ⟨a.condIn_true, hP.1, hP.2⟩).2
    exact ⟨fun _ _ _ _ => hl.step_count hs₂, hl.step_set hg hstep (hop i.1) hs₂⟩

/-- While `MU_LONG_WAIT` is set, a thread that has set it and has not acquired
since is in `nsync_mu_lock_slow_` and has been woken there at least
`LONG_WAIT_THRESHOLD` times.  Whoever acquires while the bit is set has been
taken off the queue of the mutex since it began its attempt. -/
theorem long_wait_not_orphaned (hr : LongRecorded E y (s, h)) :
    (s.word &&& muLongWait ≠ 0#32 → ∃ t l k p, s.pc t = .lockSlow l k p ∧
      longWaitThreshold ≤ h.woken t ∧ h.hasSet t = true) ∧
    (∀ t held, s.pc t = .client held → s.dequeued t = false) ∧
    ∀ t act s', Regular t act s → step E t act s = some s' → (s.pc t).Acquires (s'.pc t) →
      s.word &&& muLongWait ≠ 0#32 → s.dequeued t = true := by
  have hok := hr.ok
  obtain ⟨loc, hg⟩ := hr.reachable.good_of_regular
  refine ⟨fun hw => ?_, fun t held hpc => ?_, fun t act s' hP hs hacq hw => ?_⟩
  · rw [ne_eq, and_muLongWait, Bool.not_eq_false] at hw
    obtain ⟨t, hlong, hset⟩ := hok.set hw
    cases hpc : s.pc t <;> rw [hpc] at hlong <;> try cases hlong
    next l k p => exact ⟨t, l, k, p, hpc, (hok.count t l k p hpc).2 hlong, hset⟩
  · have hc := hg.inv.place.compat t
    have hnone : loc t = .none := by simpa [State.abs, Pc.abs, hpc, Pc.phase, Compat] using hc
    by_contra hd
    rw [Bool.not_eq_false] at hd
    have := (hg.inv.place.deq t).mp hd
    simp [State.abs, hnone, Loc.Dequeued] at this
  · rw [ne_eq, and_muLongWait, Bool.not_eq_false] at hw
    obtain ⟨loc, loc', hg, -, hstep⟩ := hr.reachable.step_of_regular hP hs
    exact hstep.deq_of_acquires hg.inv hacq.1 hacq.2 hw

/-- A writer goes to sleep on the queue. -/
def sleepRun : List (Fin 2 × Act Bool) :=
  [(0, .call (.lock .writer))] ++ goOn 0 1 ++ [(1, .call (.lock .writer))] ++ goOn 1 8

/-- The holder gives the mutex back and wakes the sleeper, but acquires again
before that one comes to it. -/
def overtakeRun : List (Fin 2 × Act Bool) :=
  [(0, .call (.unlock .unlock))] ++ goOn 0 12 ++ [(0, .call (.lock .writer))] ++ goOn 0 3 ++
  goOn 1 8

/-- Overtaken as often as that, the sleeper sets the bit. -/
theorem long_wait_overtaken : ∃ (s : State (Fin 2) Bool) (h : LongHistory (Fin 2)),
    LongRecorded flagEnv false (s, h) ∧ s.word &&& muLongWait ≠ 0#32 ∧
    ∃ t l k p, s.pc t = .lockSlow l k p ∧ longWaitThreshold ≤ h.woken t ∧ h.hasSet t = true := by
  obtain ⟨s, hs, hf⟩ := Reachable.exists_of_exec (E := flagEnv) (P := Regular) (x := false)
    (sleepRun ++ (List.replicate 30 overtakeRun).flatten)
    (fun s => decide (s.word &&& muLongWait ≠ 0#32)) (by decide +kernel)
  have hw := of_decide_eq_true hf
  obtain ⟨h, hh⟩ := Reach.exists_history (fun i s s' h => h.next i.1 s s') LongHistory.empty hs
  exact ⟨s, h, hh, hw, (long_wait_not_orphaned hh).1 hw⟩

end

end Nsync.Mu
