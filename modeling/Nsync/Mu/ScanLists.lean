import Nsync.Mu.Removal

/-!
# The lists of a scan

The mutex queue changes only under its spinlock, and a thread in
`nsync_mu_unlock_slow_` loses no waiter between the queue that it takes and the
one that it returns.
-/

namespace Nsync.Mu

open Nsync.Lib

variable {T σ : Type}

/-! ## The mutex queue under the spinlock -/

section

variable [DecidableEq T] {E : Env σ} {C : WaitCondition → Prop} {s s' : State T σ} {t : T}

theorem muUnlockSlow_waiters {m : Mode} {k : UnlockCont} {p : UnlockSlowPc T}
    (hpc : s.pc t = .unlockSlow m k p) (hok : (s.pc t).Ok C (s.wtr t)) :
    (muUnlockSlow E s t m k p).waiters = s.waiters ∨ (s.pc t).spinRole ≠ .no ∨
      (view s.word).spin = false := by
  rw [hpc] at hok ⊢
  have hunlock : ∀ w, (afterUnlock (s.setWord w) t k).waiters = s.waiters := by
    intro w
    cases k <;> rfl
  rcases p with _ | _ | _ | ⟨_, _ | _⟩ | sc | ⟨sc, x, _ | _⟩ | ⟨_, _ | _⟩ | ⟨_, _ | _⟩ |
      ⟨x, wake⟩ | ⟨x, wake⟩ <;> simp only [muUnlockSlow]
  case top => split <;> first | exact Or.inl rfl | (split <;> exact Or.inl rfl)
  case fast =>
    split
    · exact Or.inl (hunlock _)
    · exact Or.inl rfl
  case grab old =>
    split
    · next hw => exact Or.inr (Or.inr (by rw [hw]; exact hok.2.2))
    · exact Or.inl rfl
  case scan =>
    cases ht : sc.testing with
    | false => exact Or.inr (Or.inl (by simp [Pc.spinRole, ht]))
    | true =>
        refine Or.inl ?_
        unfold scanStep scanStep.scanEnd
        simp only [ht, if_true]
        repeat' split
        all_goals rfl
  case scanRemove.cas => split <;> exact Or.inl rfl
  case scanSpin.load => split <;> exact Or.inl rfl
  case scanSpin.cas =>
    split
    · next hw => exact Or.inr (Or.inr (by rw [hw]; exact hok.2))
    · exact Or.inl rfl
  case final.cas | scanRelease.cas => exact Or.inr (Or.inl (by simp [Pc.spinRole]))
  case wakeSem => cases wake <;> first | exact Or.inl rfl | (cases k <;> exact Or.inl rfl)
  all_goals exact Or.inl rfl

/-- Only a thread that holds or takes the spinlock changes the mutex queue. -/
theorem step_waiters {a : Act σ} (hok : (s.pc t).Ok C (s.wtr t)) (hs : step E t a s = some s') :
    s'.waiters = s.waiters ∨ (s.pc t).spinRole ≠ .no ∨ (view s.word).spin = false := by
  have hlock : ∀ (s₁ : State T σ) (m : Mode) (k : LockCont), (afterLock s₁ t m k).waiters =
      s₁.waiters := by
    intro s₁ m k
    cases k <;> rfl
  have hunlock : ∀ (s₁ : State T σ) (k : UnlockCont), (afterUnlock s₁ t k).waiters =
      s₁.waiters := by
    intro s₁ k
    cases k <;> rfl
  cases a with
  | post =>
      cases hs
      exact Or.inl rfl
  | call c =>
      simp only [step] at hs
      split at hs
      · next held hpc =>
          left
          cases c <;> simp only [callStep] at hs
          case muWait | cvWait =>
            cases held <;> cases hs
            rfl
          case signal | debug =>
            cases hs
            rfl
          all_goals
            split at hs <;> cases hs
            rfl
      · cases hs
  | step ch =>
      simp only [step] at hs
      cases hpc : s.pc t <;> simp only [hpc, Option.some.injEq] at hs
      case client | panicked => cases hs
      case lock m b k p =>
        left
        subst hs
        cases p <;> simp only [muLock] <;> repeat' split
        all_goals first | rfl | exact hlock ..
      case lockSlow l k p =>
        rcases p with _ | _ | _ | _ | ⟨_ | _⟩ | _ | _ <;> simp only [muLockSlow, semP] at hs
        case insert => exact Or.inr (Or.inl (by simp [Pc.spinRole]))
        all_goals
          left
          repeat' split at hs
        all_goals
          cases hs
          try first | rfl | exact hlock ..
      case unlock kind k p =>
        left
        subst hs
        cases p <;> simp only [muUnlock] <;> repeat' split
        all_goals first | rfl | exact hunlock ..
      case unlockSlow => exact hs ▸ hpc ▸ muUnlockSlow_waiters hpc hok
      case muWait l p =>
        rw [hpc] at hok
        rcases p with _ | _ | _ | _ | ⟨_ | _⟩ | ⟨_ | _⟩ | _ | _ | _ | _ | _ | _ | _ | _ |
            ⟨_, _ | _⟩ | _ | _ | _ | _ <;> simp only [muWaitWithDeadline] at hs
        case enqueue.cas =>
          split at hs <;> cases hs
          · next hw => exact Or.inr (Or.inr (by rw [hw]; exact hok.2.2.2))
          · exact Or.inl rfl
        case tryRemove.cas => exact Or.inr (Or.inl (by simp [Pc.spinRole]))
        case sem =>
          left
          cases ch <;> simp only [semWaitWithCancel, semP] at hs <;> split at hs <;> cases hs
          all_goals rfl
        all_goals
          left
          repeat' split at hs
        all_goals
          cases hs
          rfl
      case cvWait l p =>
        left
        rcases p with _ | _ | ⟨_ | _⟩ | _ | _ | _ | _ | _ | ⟨_ | _⟩ | _ | _ | ⟨_, _ | _⟩ | _ | _ |
            _ <;> simp only [cvWaitWithDeadline] at hs
        case sem =>
          cases ch <;> simp only [semWaitWithCancel, semP] at hs <;> split at hs <;> cases hs
          all_goals rfl
        all_goals repeat' split at hs
        all_goals
          cases hs
          rfl
      case signal l p =>
        left
        subst hs
        rcases p with _ | ⟨_ | _⟩ | ⟨_, _, _ | _⟩ | _ | ⟨_, _, _ | _⟩ | _ <;>
          simp only [cvSignal, signalDone] <;> repeat' split
        all_goals rfl
      case wakeWaiters l p =>
        rw [hpc] at hok
        subst hs
        have hstart : ∀ s₁ : State T σ, (wakeStart s₁ t l).waiters = s₁.waiters := by
          intro s₁
          unfold wakeStart
          split <;> rfl
        rcases p with _ | _ | ⟨_, _ | _⟩ | _ | x <;> simp only [wakeWaiters]
        case cas =>
          split
          · exact Or.inl rfl
          · split
            · next hw => exact Or.inr (Or.inr (by rw [hw]; exact hok.2))
            · exact Or.inl (hstart s)
        all_goals
          left
          repeat' split
        all_goals first | rfl | exact hstart ..
      case debug l p =>
        left
        subst hs
        rcases p with _ | ⟨_ | _⟩ | _ <;> simp only [debugState] <;> repeat' split
        all_goals rfl

end

/-! ## The waiters of a scan -/

/-- What is left of the queue that thread `u` scans or has scanned. -/
def State.leftOver (s : State T σ) (u : T) : List T :=
  match (s.pc u).scan? with
  | some sc => sc.waiters ++ sc.newWaiters
  | none => s.waiters

section

variable [DecidableEq T] {E : Env σ} {s s' : State T σ} {t : T}

omit [DecidableEq T] in
theorem State.leftOver_of_scan {sc : Scan T} (h : (s.pc t).scan? = some sc) :
    s.leftOver t = sc.waiters ++ sc.newWaiters := by
  simp [State.leftOver, h]

omit [DecidableEq T] in
theorem State.leftOver_of_none (h : (s.pc t).scan? = none) : s.leftOver t = s.waiters := by
  simp [State.leftOver, h]

/-- A step of a scanning thread loses nothing but what it puts on its wake list. -/
structure ScanStep (t : T) (s s' : State T σ) : Prop where
  left : (s'.leftOver t).Sublist (s.leftOver t) ∨
    ((s.pc t).scan? ≠ none ∧ s'.leftOver t = s.leftOver t ++ s.waiters)
  wake : ∀ x ∈ (s.pc t).wake, x ∈ (s'.pc t).wake
  queue : (s'.pc t).scan? ≠ none → (s.pc t).scan? ≠ none ∧ ∀ x ∈ s'.waiters, x ∈ s.waiters

/-- The head of the outer loop of the scan. -/
theorem scanNext_gathers (s : State T σ) (t : T) (m : Mode) (k : UnlockCont) (sc : Scan T) :
    (scanNext s t m k sc).leftOver t = sc.waiters ++ s.waiters ∧
    ((scanNext s t m k sc).pc t).wake = sc.wake ∧
    (((scanNext s t m k sc).pc t).scan? ≠ none → (scanNext s t m k sc).waiters = []) := by
  cases hw : s.waiters with
  | nil =>
      rw [scanNext_nil hw]
      simp [State.leftOver, State.setPc, Pc.scan?, Pc.wake, Scan.release]
  | cons p rest =>
      obtain ⟨b, -, -, heq⟩ := scanNext_cons t m k sc hw
      rw [heq]
      cases b <;>
        simp [State.leftOver, State.setPc, Pc.scan?, Pc.wake, Scan.round, Scan.roundPc, hw]

/-- The end of a round: the remaining new waiters join the others, and those that
have arrived are taken from the queue. -/
theorem ScanStep.append {sc sc' : Scan T} {m : Mode} {k : UnlockCont} {s₁ : State T σ}
    (hsc : (s.pc t).scan? = some sc) (hwake : (s.pc t).wake = sc.wake)
    (hs₁ : s₁.waiters = s.waiters) (hold : sc'.waiters = sc.waiters ++ sc.newWaiters)
    (hw : sc'.wake = sc.wake) : ScanStep t s (scanNext s₁ t m k sc') := by
  obtain ⟨hleft, hwake', hempty⟩ := scanNext_gathers s₁ t m k sc'
  refine ⟨Or.inr ⟨by simp [hsc], ?_⟩, ?_, fun h => ⟨by simp [hsc], ?_⟩⟩
  · rw [hleft, State.leftOver_of_scan hsc, hold, hs₁]
  · rw [hwake', hwake, hw]
    exact fun x hx => hx
  · rw [hempty h]
    nofun

omit [DecidableEq T] in
/-- A step that keeps the lists of a scan, or removes a waiter from them. -/
theorem ScanStep.inRound (sc : Scan T) {sc' : Scan T} {p : Pc T} (hsc : (s.pc t).scan? = some sc)
    (hwake : (s.pc t).wake = sc.wake) (hp : s'.pc t = p) (hsc' : p.scan? = some sc')
    (hwake' : p.wake = sc'.wake) (hold : sc'.waiters = sc.waiters)
    (hnew : sc'.newWaiters.Sublist sc.newWaiters) (hw : ∀ x ∈ sc.wake, x ∈ sc'.wake)
    (hq : s'.waiters = s.waiters) : ScanStep t s s' where
  left := by
    left
    rw [State.leftOver_of_scan hsc, State.leftOver_of_scan (hp ▸ hsc'), hold]
    exact List.Sublist.append_left hnew _
  wake := by
    rw [hp, hwake, hwake']
    exact hw
  queue _ := ⟨by simp [hsc], by simp [hq]⟩

omit [DecidableEq T] in
/-- A step before the last CAS that keeps its place. -/
theorem ScanStep.atEnd {m : Mode} {k : UnlockCont} {r : Release T} {lc lc' : LoadCas}
    (hpc : s.pc t = .unlockSlow m k (.final r lc)) (hpc' : s'.pc t = .unlockSlow m k (.final r lc'))
    (hq : s'.waiters = s.waiters) : ScanStep t s s' where
  left := by
    left
    rw [State.leftOver_of_none (by rw [hpc']; rfl), State.leftOver_of_none (by rw [hpc]; rfl), hq]
  wake := by
    rw [hpc, hpc']
    exact fun x hx => hx
  queue h := by
    rw [hpc'] at h
    exact (h rfl).elim

theorem afterLock_region (s : State T σ) (t : T) (m : Mode) (k : LockCont) :
    ((afterLock s t m k).pc t).region = false := by
  cases k <;> simp [afterLock, State.setPc, Pc.region]

theorem afterUnlock_region (s : State T σ) (t : T) (k : UnlockCont) :
    ((afterUnlock s t k).pc t).region = false := by
  cases k <;> simp [afterUnlock, State.setPc, Pc.region]

theorem wakeNext_region (s : State T σ) (t : T) (m : Mode) (k : UnlockCont) (l : List T) :
    ((wakeNext s t m k l).pc t).region = false := by
  cases l with
  | nil => exact afterUnlock_region s t k
  | cons x l => simp [wakeNext, State.setPc, Pc.region]

theorem scanStep_scanStep {m : Mode} {k : UnlockCont} {sc : Scan T}
    (hpc : s.pc t = .unlockSlow m k (.scan sc))
    (hr' : ((scanStep E s t m k sc).pc t).region = true) :
    ScanStep t s (scanStep E s t m k sc) := by
  have hsc : (s.pc t).scan? = some sc := by rw [hpc]; rfl
  have hwake : (s.pc t).wake = sc.wake := by rw [hpc]; rfl
  have hround : ∀ {p : UnlockSlowPc T} {sc' : Scan T},
      (Pc.unlockSlow m k p).scan? = some sc' → (Pc.unlockSlow m k p).wake = sc'.wake →
      sc'.waiters = sc.waiters → sc'.newWaiters = sc.newWaiters → sc'.wake = sc.wake →
      ScanStep t s (s.setPc t (.unlockSlow m k p)) := by
    intro p sc' hscan hwk hold hnew hw
    exact .inRound sc hsc hwake (State.setPc_self ..) hscan hwk hold (hnew ▸ List.Sublist.refl _)
      (by rw [hw]; exact fun x hx => hx) rfl
  have hend : ∀ p, ScanStep t s (scanStep.scanEnd E s t m k sc p) := by
    intro p
    unfold scanStep.scanEnd
    simp only
    split
    · exact hround rfl rfl rfl rfl rfl
    · exact .append hsc hwake rfl rfl rfl
  cases hp : sc.p with
  | none =>
      simp only [scanStep, hp]
      exact hend none
  | some x =>
      simp only [scanStep, hp] at hr' ⊢
      split at hr'
      · next hwt =>
          rw [if_pos hwt]
          exact hend _
      next hwt =>
      rw [if_neg hwt]
      split at hr'
      · simp [State.setPc, Pc.region] at hr'
      next hpanic =>
      rw [if_neg hpanic]
      split
      · exact hround rfl rfl rfl rfl rfl
      · split
        · exact hround rfl rfl rfl rfl rfl
        · exact hround rfl rfl rfl rfl rfl

/-- Every step of a thread that stays between the two CASes of its scan. -/
theorem step_scanStep {a : Act σ} (hr : (s.pc t).region = true) (hr' : (s'.pc t).region = true)
    (hs : step E t a s = some s') : ScanStep t s s' := by
  obtain ⟨m, k, p, hpc⟩ : ∃ m k p, s.pc t = .unlockSlow m k p := by
    cases hpc : s.pc t <;> simp [hpc, Pc.region] at hr
    exact ⟨_, _, _, rfl⟩
  rw [hpc] at hr
  cases a with
  | post =>
      cases hs
      exact ⟨Or.inl (List.Sublist.refl _), fun x hx => hx, fun h => ⟨h, fun x hx => hx⟩⟩
  | call c => simp [step, hpc] at hs
  | step ch =>
      simp only [step, hpc, Option.some.injEq] at hs
      subst hs
      rcases p with _ | _ | _ | ⟨sc, _ | _⟩ | sc | ⟨sc, x, _ | _⟩ | ⟨sc, _ | _⟩ | ⟨_, _ | _⟩ |
          ⟨x, wake⟩ | ⟨x, wake⟩ <;> simp only [Pc.region, Bool.false_eq_true] at hr <;>
        simp only [muUnlockSlow] at hr' ⊢
      case scan => exact scanStep_scanStep hpc hr'
      case scanRelease.load =>
        exact .inRound sc (hpc ▸ rfl) (hpc ▸ rfl) (State.setPc_self ..) rfl rfl rfl (.refl _)
          (fun x hx => hx) rfl
      case scanRelease.cas =>
        split <;> exact .inRound sc (hpc ▸ rfl) (hpc ▸ rfl) (State.setPc_self ..) rfl rfl rfl
          (.refl _) (fun x hx => hx) rfl
      case scanRemove.load =>
        exact .inRound sc (hpc ▸ rfl) (hpc ▸ rfl) (State.setPc_self ..) rfl rfl rfl (.refl _)
          (fun x hx => hx) rfl
      case scanRemove.cas =>
        split
        · exact .inRound sc (hpc ▸ rfl) (hpc ▸ rfl) (State.setPc_self ..) rfl rfl rfl
            List.erase_sublist (fun x hx => List.mem_append_left _ hx) rfl
        · exact .inRound sc (hpc ▸ rfl) (hpc ▸ rfl) (State.setPc_self ..) rfl rfl rfl (.refl _)
            (fun x hx => hx) rfl
      case scanSpin.load =>
        split <;> exact .inRound sc (hpc ▸ rfl) (hpc ▸ rfl) (State.setPc_self ..) rfl rfl rfl
          (.refl _) (fun x hx => hx) rfl
      case scanSpin.cas =>
        split
        · exact .append (hpc ▸ rfl) (hpc ▸ rfl) rfl rfl rfl
        · exact .inRound sc (hpc ▸ rfl) (hpc ▸ rfl) (State.setPc_self ..) rfl rfl rfl (.refl _)
            (fun x hx => hx) rfl
      case final.load r => exact .atEnd hpc (State.setPc_self ..) rfl
      case final.cas r old =>
        split at hr'
        · simp [wakeNext_region] at hr'
        · next hw =>
            rw [if_neg hw]
            exact .atEnd hpc (State.setPc_self ..) rfl

/-- A scan begins in `nsync_mu_unlock_slow_` only. -/
theorem unlockSlow_of_region {a : Act σ} (hr' : (s'.pc t).region = true)
    (hs : step E t a s = some s') (hpost : a ≠ .post) : ∃ m k p, s.pc t = .unlockSlow m k p := by
  by_contra hno
  push Not at hno
  rw [← Bool.not_eq_false] at hr'
  refine hr' ?_
  cases a with
  | post => exact (hpost rfl).elim
  | call c =>
      simp only [step] at hs
      split at hs
      · next held hpc =>
          cases c <;> simp only [callStep] at hs
          case muWait | cvWait =>
            cases held <;> cases hs
            simp [State.setPc, Pc.region]
          case signal | debug =>
            cases hs
            simp [State.setPc, Pc.region]
          all_goals
            split at hs <;> cases hs
            simp [hpc, State.setPc, Pc.region]
      · cases hs
  | step ch =>
      simp only [step] at hs
      cases hpc : s.pc t <;> simp only [hpc, Option.some.injEq] at hs
      case client | panicked => cases hs
      case unlockSlow m k p => exact (hno m k p hpc).elim
      case lock m b k p =>
        subst hs
        cases p <;> simp only [muLock] <;> repeat' split
        all_goals first | exact afterLock_region .. | simp [startLockSlow, State.setPc, Pc.region]
      case lockSlow l k p =>
        rcases p with _ | _ | _ | _ | ⟨_ | _⟩ | _ | _ <;> simp only [muLockSlow] at hs
        case sem => simp [semP_pc hs, Pc.region]
        all_goals repeat' split at hs
        all_goals
          cases hs
          first | exact afterLock_region .. | simp [State.setPc, Pc.region]
      case unlock kind k p =>
        subst hs
        cases p <;> simp only [muUnlock] <;> repeat' split
        all_goals first | exact afterUnlock_region .. | simp [State.setPc, Pc.region]
      case muWait l p =>
        rcases p with _ | _ | _ | _ | ⟨_ | _⟩ | ⟨_ | _⟩ | _ | _ | _ | _ | _ | _ | _ | _ |
            ⟨_, _ | _⟩ | _ | _ | _ | _ <;> simp only [muWaitWithDeadline] at hs
        case sem =>
          obtain ⟨o, hpc'⟩ := semWaitWithCancel_pc hs
          cases o <;> simp [hpc', Pc.region]
        all_goals repeat' split at hs
        all_goals
          cases hs
          simp [startLockSlow, State.setPc, Pc.region]
      case cvWait l p =>
        rcases p with _ | _ | ⟨_ | _⟩ | _ | _ | _ | _ | _ | ⟨_ | _⟩ | _ | _ | ⟨_, _ | _⟩ | _ | _ |
            _ <;> simp only [cvWaitWithDeadline] at hs
        case sem =>
          obtain ⟨o, hpc'⟩ := semWaitWithCancel_pc hs
          simp [hpc', Pc.region]
        all_goals repeat' split at hs
        all_goals
          cases hs
          simp [startLockSlow, State.setPc, Pc.region]
      case signal l p =>
        subst hs
        rcases p with _ | ⟨_ | _⟩ | ⟨_, _, _ | _⟩ | _ | ⟨_, _, _ | _⟩ | _ <;>
          simp only [cvSignal, signalDone] <;> repeat' split
        all_goals simp [State.setPc, Pc.region]
      case wakeWaiters l p =>
        subst hs
        have hstart : ∀ s₁ : State T σ, ((wakeStart s₁ t l).pc t).region = false := by
          intro s₁
          unfold wakeStart
          split <;> simp [State.setPc, Pc.region]
        rcases p with _ | _ | ⟨_, _ | _⟩ | _ | x <;> simp only [wakeWaiters] <;> repeat' split
        all_goals first | exact hstart _ | simp [State.setPc, Pc.region]
      case debug l p =>
        subst hs
        rcases p with _ | ⟨_ | _⟩ | _ <;> simp only [debugState] <;> repeat' split
        all_goals simp [State.setPc, Pc.region]

/-- A thread that begins its scan takes the whole queue. -/
theorem step_enters {a : Act σ} (hr : (s.pc t).region = false) (hr' : (s'.pc t).region = true)
    (hs : step E t a s = some s') : s'.leftOver t = s.waiters ∧ (s'.pc t).wake = [] ∧
      ((s'.pc t).scan? ≠ none → s'.waiters = []) := by
  have hpost : a ≠ .post := by
    rintro rfl
    cases hs
    exact Bool.noConfusion (hr.symm.trans hr')
  obtain ⟨m, k, p, hpc⟩ := unlockSlow_of_region hr' hs hpost
  rw [hpc] at hr
  cases a with
  | post => exact (hpost rfl).elim
  | call c => simp [step, hpc] at hs
  | step ch =>
      simp only [step, hpc, Option.some.injEq] at hs
      subst hs
      rcases p with _ | _ | old | ⟨sc, _ | _⟩ | sc | ⟨sc, x, _ | _⟩ | ⟨sc, _ | _⟩ | ⟨_, _ | _⟩ |
          ⟨x, wake⟩ | ⟨x, wake⟩ <;> simp only [Pc.region, reduceCtorEq] at hr <;>
        simp only [muUnlockSlow] at hr' ⊢
      case grab =>
        split at hr'
        · next hw =>
            rw [if_pos hw]
            exact scanNext_gathers ..
        · simp [State.setPc, Pc.region] at hr'
      case top =>
        repeat' split at hr'
        all_goals simp [State.setPc, Pc.region] at hr'
      case fast =>
        split at hr'
        · simp [afterUnlock_region] at hr'
        · simp [State.setPc, Pc.region] at hr'
      case wakeStore => simp [State.setPc, Pc.region] at hr'
      case wakeSem => simp [wakeNext_region] at hr'

end

end Nsync.Mu
