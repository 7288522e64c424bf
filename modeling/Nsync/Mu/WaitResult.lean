import Nsync.Mu.Exclusion
import Nsync.Mu.WriterWaiting

/-!
# The result of a conditional wait

A call of `nsync_mu_wait_with_deadline` returns 0 exactly when its condition is
true, and something else only if the caller itself took its waiter off the queue
after its wait on the semaphore had ended early.
-/

namespace Nsync.Mu

open Nsync.Lib

variable {T σ : Type}

/-! ## History -/

/-- On the mutex queue, also while an unlocker has taken the queue for itself. -/
def State.OnMu (s : State T σ) (x : T) : Prop := x ∈ s.waiters ∨ ∃ v, x ∈ (s.pc v).priv

/-- The mode, condition and expiry with which a thread last called
`nsync_mu_wait_with_deadline`, the outcome of its last wait on the semaphore in
that function, and who took its waiter off the mutex queue, if anybody has since
it was last put there. -/
structure WaitHistory (T : Type) where
  args : T → Option (Mode × Option WaitCondition × Bool)
  sem : T → Outcome
  remover : T → Option T

def WaitHistory.empty : WaitHistory T := ⟨fun _ => none, fun _ => .ok, fun _ => none⟩

def Choice.outcome : Choice → Outcome
  | .run => .ok
  | .timeout => .timedOut
  | .cancel => .canceled

def Act.muWaitArgs (p : Pc T) : Act σ → Option (Mode × Option WaitCondition × Bool)
  | .call (.muWait c e) =>
      match p with
      | .client (some m) => some (m, c, e)
      | _ => none
  | _ => none

def Act.semOutcome (p : Pc T) : Act σ → Option Outcome
  | .step ch =>
      match p with
      | .muWait _ .sem => some ch.outcome
      | _ => none
  | _ => none

open Classical in
/-- The history after the action `act` of `t` from `s` to `s'`. -/
noncomputable def WaitHistory.next (t : T) (act : Act σ) (s s' : State T σ) (h : WaitHistory T) :
    WaitHistory T where
  args u := if u = t then (act.muWaitArgs (s.pc t)).or (h.args u) else h.args u
  sem u := if u = t then (act.semOutcome (s.pc t)).getD (h.sem u) else h.sem u
  remover x :=
    if ¬ s.OnMu x ∧ s'.OnMu x then none
    else if s.OnMu x ∧ ¬ s'.OnMu x then some t
    else h.remover x

/-! ## What a thread in a conditional wait knows -/

/-- After a wait on the semaphore that ended early. -/
def MuWaitPc.early : MuWaitPc → Bool
  | .recheck | .tryLoad | .tryAcquire _ | .trySetWriterWaiting _ | .tryCheckWaiting _
  | .tryCheckCount _ | .tryRemove _ _ | .tryClearWaiting _ | .tryStoreAcquired _
  | .tryStoreFailed _ => true
  | _ => false

/-- The thread has taken its waiter off the queue and has not returned yet. -/
def MuWaitPc.removed (l : MuWait) : MuWaitPc → Bool
  | .tryClearWaiting _ | .tryStoreAcquired _ => true
  | .delay | .waitLoad => l.haveLock
  | .evalCondition => !decide (l.outcome = .ok)
  | _ => false

def Pc.removedSelf : Pc T → Bool
  | .muWait l p => p.removed l
  | _ => false

theorem MuWaitPc.removed_evalCondition {l : MuWait} (h : l.outcome = .ok) :
    MuWaitPc.evalCondition.removed l = false := by
  change (!decide (l.outcome = .ok)) = false
  simp [h]

/-- Thread `t` is at `p` in a conditional wait with locals `l`. -/
structure CondWaitOk (h : WaitHistory T) (t : T) (p : Pc T) (l : MuWait) : Prop where
  args : h.args t = some (l.entry, l.condition, l.expires)
  sem : l.semOutcome ≠ .ok → h.sem t = l.semOutcome ∧ l.expires = true
  early : ∀ l' q, p = .muWait l' q → q.early = true → l.semOutcome ≠ .ok
  removed : p.removedSelf = true → h.remover t = some t
  outcome : l.outcome ≠ .ok → p.removedSelf = true ∧ h.sem t = l.outcome ∧ l.expires = true

section

variable [DecidableEq T] [Fintype T] {E : Env σ} {C : WaitCondition → Prop} {s s' : State T σ}
  {loc loc' : T → Loc T} {t u x : T} {act : Act σ} {h : WaitHistory T} {l : MuWait} {p : Pc T}

omit [DecidableEq T] [Fintype T] in
theorem Lists.onMu_iff (hl : Lists s loc) : s.OnMu x ↔ (loc x).Queued := by
  rw [State.OnMu, hl.muQ.mem]
  exact or_congr Iff.rfl (exists_congr fun v => (hl.priv v).mem x)

omit [DecidableEq T] [Fintype T] in
theorem Pc.phase_of_removedSelf (hp : p.removedSelf = true) :
    p.phase = .idle ∨ ∃ b, p.phase = .off b := by
  cases p with
  | muWait l q =>
      cases q with
      | evalCondition => exact Or.inl rfl
      | tryClearWaiting old | tryStoreAcquired old => exact Or.inr ⟨_, rfl⟩
      | delay | waitLoad =>
          have hl : l.haveLock = true := hp
          exact Or.inr ⟨false, by simp [Pc.phase, hl]⟩
      | _ => cases hp
  | _ => cases hp

omit [DecidableEq T] in
theorem Good.loc_of_removedSelf (hg : Good E C s loc) (hp : (s.pc t).removedSelf = true) :
    loc t = .none := by
  have hc : Compat (loc t) (s.wtr t).core (s.pc t).phase := hg.inv.place.compat t
  rcases Pc.phase_of_removedSelf hp with hph | ⟨b, hph⟩ <;> rw [hph] at hc
  · exact hc
  · exact hc.1

omit [DecidableEq T] in
/-- Off the queue before and after a step, the waiter has the same last remover. -/
theorem WaitHistory.remover_of_off (hg : Good E C s loc) (hg' : Good E C s' loc')
    (hx : loc x = .none) (hx' : loc' x = .none) : (h.next t act s s').remover x = h.remover x := by
  have hoff : ¬ s.OnMu x := by simp [hg.lists.onMu_iff, hx, Loc.Queued]
  have hoff' : ¬ s'.OnMu x := by simp [hg'.lists.onMu_iff, hx', Loc.Queued]
  simp [WaitHistory.next, hoff, hoff']

omit [DecidableEq T] [Fintype T] in
@[simp] theorem WaitHistory.next_args_of_ne (hut : u ≠ t) :
    (h.next t act s s').args u = h.args u := by
  simp [WaitHistory.next, hut]

omit [DecidableEq T] [Fintype T] in
@[simp] theorem WaitHistory.next_sem_of_ne (hut : u ≠ t) : (h.next t act s s').sem u = h.sem u := by
  simp [WaitHistory.next, hut]

omit [DecidableEq T] in
/-- A step that leaves the thread and what it has recorded alone. -/
theorem CondWaitOk.frame (hw : CondWaitOk h u p l) (hp : s.pc u = p) (hp' : s'.pc u = p)
    (hg : Good E C s loc) (hg' : Good E C s' loc')
    (hargs : (h.next t act s s').args u = h.args u)
    (hsem : (h.next t act s s').sem u = h.sem u) : CondWaitOk (h.next t act s s') u p l where
  args := by rw [hargs, hw.args]
  sem := by
    rw [hsem]
    exact hw.sem
  early := hw.early
  removed hr := by
    rw [WaitHistory.remover_of_off hg hg' (hg.loc_of_removedSelf (hp ▸ hr))
      (hg'.loc_of_removedSelf (hp' ▸ hr))]
    exact hw.removed hr
  outcome := by
    rw [hsem]
    exact hw.outcome

/-- A step of the thread itself that is not a wait on the semaphore and removes
nothing from the queue. -/
theorem CondWaitOk.goto {p p' : Pc T} {l l' : MuWait} (hw : CondWaitOk h t p l) (hp : s.pc t = p)
    (hp' : s'.pc t = p') (hg : Good E C s loc) (hg' : Good E C s' loc')
    (hargs : (l'.entry, l'.condition, l'.expires) = (l.entry, l.condition, l.expires))
    (hact : act.muWaitArgs p = none ∧ act.semOutcome p = none)
    (hsem : l'.semOutcome = l.semOutcome ∨ l'.semOutcome = .ok)
    (hearly : ∀ l₁ q, p' = .muWait l₁ q → q.early = true → l'.semOutcome ≠ .ok)
    (hout : l'.outcome = l.outcome) (hok : l.outcome ≠ .ok → p'.removedSelf = true)
    (hself : p'.removedSelf = true → p.removedSelf = true) :
    CondWaitOk (h.next t act s s') t p' l' := by
  simp only [Prod.mk.injEq] at hargs
  obtain ⟨h1, h2, h3⟩ := hargs
  have hkeep : (h.next t act s s').args t = h.args t ∧ (h.next t act s s').sem t = h.sem t := by
    simp [WaitHistory.next, hp, hact.1, hact.2]
  refine ⟨?_, fun hs => ?_, hearly, fun hr => ?_, fun ho => ?_⟩
  · rw [hkeep.1, hw.args, h1, h2, h3]
  · rcases hsem with hsem | hsem
    · rw [hkeep.2, hsem, h3]
      exact hw.sem (hsem ▸ hs)
    · exact (hs hsem).elim
  · rw [WaitHistory.remover_of_off hg hg' (hg.loc_of_removedSelf (hp ▸ hself hr))
      (hg'.loc_of_removedSelf (hp' ▸ hr))]
    exact hw.removed (hself hr)
  · rw [hout] at ho
    rw [hkeep.2, hout, h3]
    exact ⟨hok ho, (hw.outcome ho).2⟩

omit [Fintype T] in
/-- A wait on the semaphore. -/
theorem CondWaitOk.semWait {l : MuWait} {ch : Choice} (hw : CondWaitOk h t (.muWait l .sem) l)
    (hp : s.pc t = .muWait l .sem) (hlock : l.haveLock = false)
    (hs : muWaitWithDeadline E s t l ch .sem = some s') {l' : MuWait}
    (hl' : (s'.pc t).muWait? = some l') : CondWaitOk (h.next t (.step ch) s s') t (s'.pc t) l' := by
  have hout : l.outcome = .ok := by
    by_contra ho
    cases (hw.outcome ho).1
  have hres : (ch.outcome ≠ .ok → l.expires = true) ∧
      s'.pc t = (if ch.outcome = .ok then .muWait { l with semOutcome := ch.outcome } .delay
        else .muWait { l with semOutcome := ch.outcome } .recheck) := by
    cases ch <;> simp only [muWaitWithDeadline, semWaitWithCancel, semP] at hs <;>
      split at hs <;> cases hs
    · exact ⟨fun hc => (hc rfl).elim, State.setPc_self ..⟩
    · next he => exact ⟨fun _ => he, State.setPc_self ..⟩
    · next he => exact ⟨fun _ => he, State.setPc_self ..⟩
  obtain ⟨hexp, hpc'⟩ := hres
  have hleq : l' = { l with semOutcome := ch.outcome } := by
    rw [hpc'] at hl'
    split at hl' <;> exact (Option.some.inj hl').symm
  have hnext : (h.next t (.step ch) s s').args t = h.args t ∧
      (h.next t (.step ch) s s').sem t = ch.outcome := by
    simp [WaitHistory.next, hp, Act.muWaitArgs, Act.semOutcome]
  subst hleq
  refine ⟨by rw [hnext.1, hw.args], fun hs => ⟨hnext.2, hexp hs⟩, fun l₁ q hq he => ?_,
    fun hr => ?_, fun ho => (ho hout).elim⟩
  · rw [hpc'] at hq
    split at hq
    · cases hq
      cases he
    · assumption
  · rw [hpc'] at hr
    split at hr
    · cases hlock.symm.trans hr
    · cases hr

/-- The caller takes its waiter off the queue. -/
theorem CondWaitOk.removeSelf {l : MuWait} {ch : Choice} {old rc : Word}
    (hw : CondWaitOk h t (.muWait l (.tryRemove old (.cas rc))) l)
    (hp : s.pc t = .muWait l (.tryRemove old (.cas rc)))
    (hp' : s'.pc t = .muWait l (.tryClearWaiting old)) (hg : Good E C s loc)
    (hg' : Good E C s' loc') :
    CondWaitOk (h.next t (.step ch) s s') t (.muWait l (.tryClearWaiting old)) l := by
  have hout : l.outcome = .ok := by
    by_contra ho
    cases (hw.outcome ho).1
  have hkeep : (h.next t (.step ch) s s').args t = h.args t ∧
      (h.next t (.step ch) s s').sem t = h.sem t := by
    simp [WaitHistory.next, hp, Act.muWaitArgs, Act.semOutcome]
  have hon : s.OnMu t := by
    have hc : Compat (loc t) (s.wtr t).core (s.pc t).phase := hg.inv.place.compat t
    rw [hp] at hc
    exact hg.lists.onMu_iff.mpr (Or.inl hc.1)
  have hoff : ¬ s'.OnMu t := by
    rw [hg'.lists.onMu_iff, hg'.loc_of_removedSelf (t := t) (by rw [hp']; rfl)]
    simp [Loc.Queued]
  refine ⟨by rw [hkeep.1, hw.args], by rw [hkeep.2]; exact hw.sem, fun _ _ _ _ => ?_, fun _ => ?_,
    fun ho => (ho hout).elim⟩
  · exact hw.early _ _ rfl rfl
  · simp [WaitHistory.next, hon, hoff]

/-- The caller has acquired, and its wait has the outcome of the semaphore. -/
theorem CondWaitOk.acquired {l : MuWait} {ch : Choice} {old : Word}
    (hw : CondWaitOk h t (.muWait l (.tryStoreAcquired old)) l)
    (hp : s.pc t = .muWait l (.tryStoreAcquired old))
    (hp' : s'.pc t = .muWait { l with haveLock := true, outcome := l.semOutcome } .delay)
    (hg : Good E C s loc) (hg' : Good E C s' loc') :
    CondWaitOk (h.next t (.step ch) s s') t
      (.muWait { l with haveLock := true, outcome := l.semOutcome } .delay)
      { l with haveLock := true, outcome := l.semOutcome } := by
  have hkeep : (h.next t (.step ch) s s').args t = h.args t ∧
      (h.next t (.step ch) s s').sem t = h.sem t := by
    simp [WaitHistory.next, hp, Act.muWaitArgs, Act.semOutcome]
  refine ⟨by rw [hkeep.1, hw.args], by rw [hkeep.2]; exact hw.sem, ?_, fun hr => ?_, fun ho => ?_⟩
  · rintro l₁ q ⟨⟩ he
    cases he
  · rw [WaitHistory.remover_of_off hg hg' (hg.loc_of_removedSelf (by rw [hp]; rfl))
      (hg'.loc_of_removedSelf (by rw [hp']; exact hr))]
    exact hw.removed rfl
  · rw [hkeep.2]
    exact ⟨rfl, hw.sem ho⟩

omit [DecidableEq T] [Fintype T] in
theorem CondWaitOk.outcome_ok {p : MuWaitPc} (hw : CondWaitOk h t (.muWait l p) l)
    (hr : p.removed l = false) : l.outcome = .ok := by
  by_contra ho
  cases hr.symm.trans (hw.outcome ho).1

/-- A step of the wait before its waiter is queued, or after it was dequeued by
somebody else. -/
theorem CondWaitOk.plain {ch : Choice} {p p' : MuWaitPc} {l₁ : MuWait} (hw : CondWaitOk h t (.muWait l p) l)
    (hp : s.pc t = .muWait l p) (hp' : s'.pc t = .muWait l₁ p') (hg : Good E C s loc)
    (hg' : Good E C s' loc')
    (hargs : (l₁.entry, l₁.condition, l₁.expires) = (l.entry, l.condition, l.expires))
    (hne : p ≠ .sem) (hsem : l₁.semOutcome = l.semOutcome ∨ l₁.semOutcome = .ok)
    (hearly : p'.early = true → p.early = true ∧ l₁.semOutcome = l.semOutcome)
    (hout : l₁.outcome = l.outcome) (hr : p.removed l = false) (hr' : p'.removed l₁ = false) :
    ∀ l', (s'.pc t).muWait? = some l' →
      CondWaitOk (h.next t (.step ch) s s') t (s'.pc t) l' := by
  intro l' hl'
  rw [hp'] at hl' ⊢
  obtain rfl : l₁ = l' := Option.some.inj hl'
  refine hw.goto hp hp' hg hg' hargs ⟨rfl, ?_⟩ hsem ?_ hout
    (fun ho => (ho (hw.outcome_ok hr)).elim) fun hr₁ => ?_
  · cases p <;> first | rfl | exact (hne rfl).elim
  · rintro l₂ q ⟨⟩ he
    obtain ⟨he₀, heq⟩ := hearly he
    rw [heq]
    exact hw.early l p rfl he₀
  · cases hr'.symm.trans hr₁

omit [DecidableEq T] [Fintype T] in
/-- A thread that leaves the conditional wait. -/
theorem CondWaitOk.gone {p' : Pc T} (hp' : s'.pc t = p') (hnone : p'.muWait? = none) :
    ∀ l', (s'.pc t).muWait? = some l' → CondWaitOk h t (s'.pc t) l' := by
  intro l' hl'
  rw [hp', hnone] at hl'
  cases hl'

/-- The places before the wait on the semaphore. -/
def MuWaitPc.before : MuWaitPc → Bool
  | .loadWord | .evalCondition | .storeWaiting | .loadRemoveCount | .enqueue _ | .release _ => true
  | _ => false

theorem CondWaitOk.step_before {l : MuWait} {ch : Choice} {p : MuWaitPc}
    (hw : CondWaitOk h t (.muWait l p) l) (hp : s.pc t = .muWait l p) (hg : Good E C s loc)
    (hg' : Good E C s' loc') (hs : muWaitWithDeadline E s t l ch p = some s')
    (hb : p.before = true) :
    ∀ l', (s'.pc t).muWait? = some l' → CondWaitOk (h.next t (.step ch) s s') t (s'.pc t) l' := by
  cases p with
  | loadWord =>
      simp only [muWaitWithDeadline] at hs
      split at hs <;> cases hs
      · exact CondWaitOk.gone (State.setPc_self ..) rfl
      · exact hw.plain hp (State.setPc_self ..) hg hg' rfl (by simp) (Or.inl rfl) (fun h => by cases h) rfl rfl
          (MuWaitPc.removed_evalCondition (hw.outcome_ok rfl))
  | evalCondition =>
      simp only [muWaitWithDeadline] at hs
      split at hs
      all_goals split at hs <;> cases hs
      all_goals
        first
        | exact CondWaitOk.gone (State.setPc_self ..) rfl
        | exact hw.plain hp (State.setPc_self ..) hg hg' rfl (by simp) (Or.inl rfl)
            (fun h => by cases h) rfl
            (MuWaitPc.removed_evalCondition (And.left ‹l.outcome = .ok ∧ _›)) rfl
  | storeWaiting | loadRemoveCount =>
      cases hs
      exact hw.plain hp (State.setPc_self ..) hg hg' rfl (by simp) (Or.inl rfl) (fun h => by cases h) rfl rfl rfl
  | enqueue lc =>
      cases lc <;> simp only [muWaitWithDeadline] at hs <;> split at hs <;> cases hs
      all_goals
        exact hw.plain hp (Function.update_self ..) hg hg' rfl (by simp) (Or.inl rfl) (fun h => by cases h) rfl rfl rfl
  | release lc =>
      cases lc with
      | load =>
          cases hs
          exact hw.plain hp (State.setPc_self ..) hg hg' rfl (by simp) (Or.inl rfl)
            (fun h => by cases h) rfl rfl rfl
      | cas old =>
          simp only [muWaitWithDeadline] at hs
          repeat' split at hs
          all_goals cases hs
          · intro l' hl'
            rw [State.setPc_self] at hl'
            obtain rfl := Option.some.inj hl'
            rw [State.setPc_self]
            refine hw.goto hp (State.setPc_self ..) hg hg' rfl ⟨rfl, rfl⟩ (Or.inr rfl) ?_ rfl
              (fun ho => (ho (hw.outcome_ok rfl)).elim) fun h => by cases h
            rintro l₂ q ⟨⟩
          · exact hw.plain hp (State.setPc_self ..) hg hg' rfl (by simp) (Or.inr rfl)
              (fun h => by cases h) rfl rfl rfl
          · exact hw.plain hp (State.setPc_self ..) hg hg' rfl (by simp) (Or.inl rfl)
              (fun h => by cases h) rfl rfl rfl
  | _ => cases hb

theorem CondWaitOk.step_waiting {l : MuWait} {ch : Choice} {p : MuWaitPc}
    (hw : CondWaitOk h t (.muWait l p) l) (hp : s.pc t = .muWait l p) (hg : Good E C s loc)
    (hg' : Good E C s' loc') (hs : muWaitWithDeadline E s t l ch p = some s')
    (hb : p = .waitLoad ∨ p = .recheck ∨ p = .delay) :
    ∀ l', (s'.pc t).muWait? = some l' → CondWaitOk (h.next t (.step ch) s s') t (s'.pc t) l' := by
  have hok : Pc.muWaitOk l (s.wtr t) p := by
    have := (hg.pcs t).ok
    rw [hp] at this
    exact this.2.2
  rcases hb with rfl | rfl | rfl
  · -- a thread that has acquired after a timeout does not wait again
    have hwaiting : (s.wtr t).waiting = true → l.haveLock = false := by
      intro hwait
      by_contra hl
      rw [Bool.not_eq_false] at hl
      have hc : Compat (loc t) (s.wtr t).core (s.pc t).phase := hg.inv.place.compat t
      rw [hp] at hc
      simp only [Pc.phase, hl, if_true] at hc
      cases hwait.symm.trans hc.2
    simp only [muWaitWithDeadline] at hs
    split at hs
    · next hwait =>
        split at hs <;> cases hs
        · exact hw.plain hp (State.setPc_self ..) hg hg' rfl (by simp) (Or.inl rfl)
            (fun h => by cases h) rfl (hwaiting hwait) rfl
        · exact hw.plain hp (State.setPc_self ..) hg hg' rfl (by simp) (Or.inl rfl)
            (fun h => by cases h) rfl (hwaiting hwait) (hwaiting hwait)
    · split at hs <;> cases hs
      · next hl =>
          intro l' hl'
          rw [State.setPc_self] at hl'
          obtain rfl := Option.some.inj hl'
          rw [State.setPc_self]
          refine hw.goto hp (State.setPc_self ..) hg hg' rfl ⟨rfl, rfl⟩ (Or.inl rfl) ?_ rfl
            (fun ho => ?_) fun _ => hl
          · rintro l₂ q ⟨⟩ he
            cases he
          · change (!decide (l.outcome = .ok)) = true
            simp [ho]
      · next hl =>
          rw [Bool.not_eq_true] at hl
          intro l' hl'
          rw [startLockSlow, State.setPc_self] at hl'
          obtain rfl := Option.some.inj hl'
          rw [startLockSlow, State.setPc_self]
          refine hw.goto hp (State.setPc_self ..) hg hg' rfl ⟨rfl, rfl⟩ (Or.inl rfl) ?_ rfl
            (fun ho => (ho (hw.outcome_ok hl)).elim) fun h => by cases h
          rintro l₂ q ⟨⟩
  · simp only [muWaitWithDeadline] at hs
    split at hs <;> cases hs
    · exact hw.plain hp (State.setPc_self ..) hg hg' rfl (by simp) (Or.inl rfl)
        (fun _ => ⟨rfl, rfl⟩) rfl rfl rfl
    · exact hw.plain hp (State.setPc_self ..) hg hg' rfl (by simp) (Or.inl rfl)
        (fun h => by cases h) rfl rfl hok.1
  · cases hs
    intro l' hl'
    rw [State.setPc_self] at hl'
    obtain rfl := Option.some.inj hl'
    rw [State.setPc_self]
    refine hw.goto hp (State.setPc_self ..) hg hg' rfl ⟨rfl, rfl⟩ (Or.inl rfl) ?_ rfl
      (fun ho => (hw.outcome ho).1) id
    rintro l₂ q ⟨⟩ he
    cases he

theorem CondWaitOk.step_trying {l : MuWait} {ch : Choice} {p : MuWaitPc}
    (hw : CondWaitOk h t (.muWait l p) l) (hp : s.pc t = .muWait l p) (hg : Good E C s loc)
    (hg' : Good E C s' loc') (hs : muWaitWithDeadline E s t l ch p = some s')
    (hb : (Pc.muWait (T := T) l p).trying = true) :
    ∀ l', (s'.pc t).muWait? = some l' → CondWaitOk (h.next t (.step ch) s s') t (s'.pc t) l' := by
  have hok : Pc.muWaitOk l (s.wtr t) p := by
    have := (hg.pcs t).ok
    rw [hp] at this
    exact this.2.2
  have tries : ∀ {p' : MuWaitPc}, s'.pc t = .muWait l p' → p.removed l = false →
      p'.removed l = false → p.early = true → p ≠ .sem →
      ∀ l', (s'.pc t).muWait? = some l' → CondWaitOk (h.next t (.step ch) s s') t (s'.pc t) l' :=
    fun hp' hr hr' he hne =>
      hw.plain hp hp' hg hg' rfl hne (Or.inl rfl) (fun _ => ⟨he, rfl⟩) rfl hr hr'
  cases p with
  | tryLoad | tryAcquire old =>
      simp only [muWaitWithDeadline] at hs
      repeat' split at hs
      all_goals
        cases hs
        exact tries (State.setPc_self ..) rfl rfl rfl (by simp)
  | trySetWriterWaiting old | tryCheckWaiting old | tryCheckCount old =>
      simp only [muWaitWithDeadline] at hs
      split at hs <;> cases hs
      all_goals exact tries (State.setPc_self ..) rfl rfl rfl (by simp)
  | tryRemove old lc =>
      cases lc with
      | load =>
          cases hs
          exact tries (State.setPc_self ..) rfl rfl rfl (by simp)
      | cas rc =>
          simp only [muWaitWithDeadline] at hs
          split at hs <;> cases hs
          · intro l' hl'
            simp only [State.setPc_self] at hl' ⊢
            obtain rfl := Option.some.inj hl'
            exact hw.removeSelf hp (State.setPc_self ..) hg hg'
          · exact tries (State.setPc_self ..) rfl rfl rfl (by simp)
  | tryClearWaiting old =>
      cases hs
      intro l' hl'
      rw [State.setPc_self] at hl' ⊢
      obtain rfl := Option.some.inj hl'
      exact hw.goto hp (State.setPc_self ..) hg hg' rfl ⟨rfl, rfl⟩ (Or.inl rfl)
        (fun _ _ _ _ => hw.early _ _ rfl rfl) rfl (fun _ => rfl) fun _ => rfl
  | tryStoreAcquired old =>
      cases hs
      intro l' hl'
      rw [State.setPc_self] at hl' ⊢
      obtain rfl := Option.some.inj hl'
      exact hw.acquired hp (State.setPc_self ..) hg hg'
  | tryStoreFailed old =>
      cases hs
      exact tries (State.setPc_self ..) rfl hok.1 rfl (by simp)
  | _ => cases hb

/-- A step of the wait itself. -/
theorem CondWaitOk.step_own {l : MuWait} {ch : Choice} {p : MuWaitPc} (hw : CondWaitOk h t (.muWait l p) l)
    (hp : s.pc t = .muWait l p) (hg : Good E C s loc) (hg' : Good E C s' loc')
    (hs : muWaitWithDeadline E s t l ch p = some s') :
    ∀ l', (s'.pc t).muWait? = some l' → CondWaitOk (h.next t (.step ch) s s') t (s'.pc t) l' := by
  cases p with
  | sem =>
      have hok := (hg.pcs t).ok
      rw [hp] at hok
      exact fun l' => hw.semWait hp hok.2.2.1 hs
  | loadWord | evalCondition | storeWaiting | loadRemoveCount | enqueue | release =>
      exact hw.step_before hp hg hg' hs rfl
  | waitLoad => exact hw.step_waiting hp hg hg' hs (Or.inl rfl)
  | recheck => exact hw.step_waiting hp hg hg' hs (Or.inr (Or.inl rfl))
  | delay => exact hw.step_waiting hp hg hg' hs (Or.inr (Or.inr rfl))
  | _ => exact hw.step_trying hp hg hg' hs rfl

/-- Every thread in a conditional wait. -/
def CondWaitInv (s : State T σ) (h : WaitHistory T) : Prop :=
  ∀ u l, (s.pc u).muWait? = some l → CondWaitOk h u (s.pc u) l

omit [Fintype T] in
theorem CondWaitOk.start {c : Option WaitCondition} {e : Bool} {m : Mode}
    (hpc : s.pc t = .client (some m)) (hs : callStep s t (some m) (.muWait c e) = some s')
    (hl : (s'.pc t).muWait? = some l) :
    CondWaitOk (h.next t (.call (.muWait c e)) s s') t (s'.pc t) l := by
  cases hs
  rw [State.setPc_self] at hl ⊢
  obtain rfl := Option.some.inj hl
  refine ⟨?_, fun hs => (hs rfl).elim, ?_, fun hr => (by cases hr), fun ho => (ho rfl).elim⟩
  · simp [WaitHistory.next, Act.muWaitArgs, hpc]
  · rintro l₁ q ⟨⟩ he
    cases he

omit [DecidableEq T] [Fintype T] in
theorem Act.records_nothing (hl : p.muWait? = some l) (hp : ∀ l₀ q, p ≠ .muWait l₀ q) :
    act.muWaitArgs p = none ∧ act.semOutcome p = none := by
  constructor
  · rcases act with c | _ | _
    · cases c <;> first | rfl | (cases p <;> first | rfl | cases hl)
    · rfl
    · rfl
  · cases act <;> first | rfl | skip
    cases p with
    | muWait l₀ q => exact (hp l₀ q rfl).elim
    | _ => rfl

/-- A function that the wait has called goes on or returns to it. -/
theorem CondWaitOk.back {q : MuWaitPc} (hw : CondWaitOk h t (s.pc t) l) (hl : (s.pc t).muWait? = some l)
    (hp : ∀ l₀ q, s.pc t ≠ .muWait l₀ q) (hb : (s'.pc t).BackIn l q) (hearly : q.early = false)
    (hr : l.outcome = .ok → q.removed l = false) (hg : Good E C s loc) (hg' : Good E C s' loc') :
    CondWaitOk (h.next t act s s') t (s'.pc t) l := by
  have hself : (s.pc t).removedSelf = false := by
    cases hpc : s.pc t with
    | muWait l₀ q => exact (hp l₀ q hpc).elim
    | _ => rfl
  have hout : l.outcome = .ok := by
    by_contra ho
    cases hself.symm.trans (hw.outcome ho).1
  have hself' : (s'.pc t).removedSelf = false := by
    cases hpc : s'.pc t with
    | muWait l₁ q₁ =>
        obtain rfl := hb.2 l₁ q₁ hpc
        have hl₁ := hb.1
        rw [hpc] at hl₁
        obtain rfl := Option.some.inj hl₁
        exact hr hout
    | _ => rfl
  refine hw.goto rfl rfl hg hg' rfl (Act.records_nothing hl hp) (Or.inl rfl) ?_ rfl
    (fun ho => (ho hout).elim) fun hr' => ?_
  · intro l₁ q₁ hpc he
    obtain rfl := hb.2 l₁ q₁ hpc
    cases hearly.symm.trans he
  · cases hself'.symm.trans hr'

theorem CondWaitInv.step (hi : CondWaitInv s h) (hg : Good E C s loc) (hg' : Good E C s' loc')
    (hs : step E t act s = some s') : CondWaitInv s' (h.next t act s s') := by
  intro u l hl
  rcases eq_or_ne u t with rfl | hut
  · rcases step_muWait? (hg.pcs u).ok hs hl with
      ⟨c, e, m, rfl, hpc, hcall⟩ | ⟨ch, l₀, p, rfl, hpc, hs'⟩ | ⟨hl₀, hp, hback⟩ | rfl
    · exact CondWaitOk.start hpc hcall hl
    · have hw := hi u l₀ (by rw [hpc]; rfl)
      rw [hpc] at hw
      exact hw.step_own hpc hg hg' hs' l hl
    · rcases hback with hback | ⟨hlock, hback⟩
      · exact (hi u l hl₀).back hl₀ hp hback rfl MuWaitPc.removed_evalCondition hg hg'
      · exact (hi u l hl₀).back hl₀ hp hback rfl (fun _ => hlock) hg hg'
    · cases hs
      exact (hi u l hl).frame rfl rfl hg hg' (by simp [WaitHistory.next, Act.muWaitArgs])
        (by simp [WaitHistory.next, Act.semOutcome])
  · rw [step_pc_of_ne hut hs] at hl ⊢
    exact (hi u l hl).frame rfl (step_pc_of_ne hut hs) hg hg' (WaitHistory.next_args_of_ne hut)
      (WaitHistory.next_sem_of_ne hut)

end

/-! ## Runs -/

section

variable [DecidableEq T] [Fintype T] {E : Env σ} {s s' : State T σ} {t : T} {act : Act σ}
  {h : WaitHistory T} {y : σ}

/-- The states that regular runs reach, with the history of conditional waits. -/
def WaitRecorded (E : Env σ) (y : σ) : State T σ × WaitHistory T → Prop :=
  Reach (withHistory (fun (i : T × Act σ) s => step E i.1 i.2 s)
    fun i s s' h => h.next i.1 i.2 s s')
    (fun i p => Regular i.1 i.2 p.1) (initial y, WaitHistory.empty)

theorem WaitRecorded.reachable (hr : WaitRecorded E y (s, h)) : Reachable E Regular y s :=
  Reach.forget_history hr

theorem WaitRecorded.inv (hr : WaitRecorded E y (s, h)) : CondWaitInv s h := by
  refine Reach.invariant hr (I := fun p => CondWaitInv p.1 p.2) (fun u l hl => ?_) ?_
  · cases hl
  · rintro i ⟨s₁, h₁⟩ p hr₁ hi hP hs
    obtain ⟨s₂, hs₂, rfl⟩ := Option.map_eq_some_iff.mp hs
    obtain ⟨loc, loc', hg, hg', -⟩ := (WaitRecorded.reachable hr₁).step_of_regular hP hs₂
    exact hi.step hg hg' hs₂

/-- The condition of a wait, where `NULL` is always true. -/
def conditionMet (E : Env σ) (c : Option WaitCondition) (x : σ) : Bool :=
  match c with
  | none => true
  | some c => c.holds E x

omit [Fintype T] in
theorem muWait_evalCondition {l : MuWait} {ch : Choice} :
    muWaitWithDeadline E s t l ch .evalCondition =
      if l.outcome = .ok ∧ conditionMet E l.condition s.prot = false then
        some ((s.setWtr t fun w =>
          { w with cvMu := false, lType := l.lType, cond := l.condition }).setPc t
            (.muWait l .storeWaiting))
      else
        some { s.setPc t (.client (some l.lType)) with
          result := Function.update s.result t
            (if conditionMet E l.condition s.prot then .ok else l.outcome) } := rfl

/-- The result of a call whose locals are `l`, when it returns in the protected
state `x`. -/
def MuWait.result (E : Env σ) (x : σ) (l : MuWait) : Outcome :=
  if conditionMet E l.condition x then .ok else l.outcome

omit [Fintype T] in
theorem muWait_returned {l : MuWait} {ch : Choice} {held : Option Mode}
    (hs : muWaitWithDeadline E s t l ch .evalCondition = some s') (hret : s'.pc t = .client held) :
    held = some l.lType ∧ s'.prot = s.prot ∧ s'.result t = l.result E s.prot ∧
      (conditionMet E l.condition s.prot = false → l.outcome ≠ .ok) := by
  rw [muWait_evalCondition] at hs
  split at hs
  · cases hs
    rw [State.setPc_self] at hret
    cases hret
  · next hends =>
      cases hs
      have hpc : (Pc.client (some l.lType) : Pc T) = .client held := by
        rw [← hret]
        exact (State.setPc_self s t _).symm
      refine ⟨by cases hpc; rfl, rfl, Function.update_self .., fun hc ho => hends ⟨ho, hc⟩⟩

/-- `nsync_mu_wait` panics on this result of `nsync_mu_wait_with_deadline`. -/
def nsyncMuWaitPanics (outcome : Outcome) : Bool := !decide (outcome = .ok)

/-- When a conditional wait returns, the mutex is held as it was on entry, and the
result is 0 exactly if the condition is true.  Any other result is that of the
last wait on the semaphore, and the caller has taken its waiter off the queue
itself.  Without a deadline and a note the result is 0.  If another thread took
the waiter off the queue and the condition is false, the caller waits again. -/
theorem muWait_result (hr : WaitRecorded E y (s, h)) :
    (∀ t act s' l held, Regular t act s → step E t act s = some s' → (s.pc t).muWait? = some l →
      s'.pc t = .client held → s'.Accounted ∧
      ∃ m c expires, h.args t = some (m, c, expires) ∧ held = some m ∧
        (s'.result t = .ok ↔ conditionMet E c s'.prot = true) ∧
        (s'.result t ≠ .ok → h.remover t = some t ∧ s'.result t = h.sem t) ∧
        (expires = false → nsyncMuWaitPanics (s'.result t) = false)) ∧
    ∀ t l u, s.pc t = .muWait l .evalCondition → h.remover t = some u → u ≠ t →
      conditionMet E l.condition s.prot = false →
      ∀ ch, ∃ s', step E t (.step ch) s = some s' ∧ s'.pc t = .muWait l .storeWaiting := by
  have hinv := hr.inv
  refine ⟨fun t act s' l held hP hs hl hret => ?_, fun t l u hpc hrem hut hc ch => ?_⟩
  · obtain ⟨loc, loc', hg, hg', -⟩ := hr.reachable.step_of_regular hP hs
    obtain ⟨hpc, ch, hs'⟩ := muWait_returns (hg.pcs t).ok hs hl hret
    have hw := hinv t l hl
    have hentry : l.entry = l.lType := by
      have hok := (hg.pcs t).ok
      rw [hpc] at hok
      exact hok.1
    obtain ⟨hheld, hprot, hres, hfalse⟩ := muWait_returned hs' hret
    refine ⟨hg'.accounted, l.entry, l.condition, l.expires, hw.args, by rw [hheld, hentry], ?_⟩
    rw [hprot, hres, MuWait.result]
    cases hc : conditionMet E l.condition s.prot with
    | true => simp [nsyncMuWaitPanics]
    | false =>
        have ho := hfalse hc
        obtain ⟨hrem, hsem, hexp⟩ := hw.outcome ho
        refine ⟨by simpa using ho, fun _ => ⟨hw.removed hrem, hsem.symm⟩, fun he => ?_⟩
        cases hexp.symm.trans he
  · have hw := hinv t l (by rw [hpc]; rfl)
    have ho : l.outcome = .ok := by
      by_contra ho
      have hself := hw.removed (hw.outcome ho).1
      exact hut (Option.some.inj (hrem.symm.trans hself))
    simp only [step, hpc]
    rw [muWait_evalCondition, if_pos ⟨ho, hc⟩]
    exact ⟨_, rfl, State.setPc_self ..⟩

/-- A thread waits for a condition until its deadline. -/
def deadlineRun : List (Fin 2 × Act Bool) :=
  List.flatten
    [[(0, .call (.lock .writer))], goOn 0 1,
      [(0, .call (.muWait (some ⟨1, 2, none⟩) true))], goOn 0 9, [(0, .step .timeout)], goOn 0 11]

theorem muWait_result_deadlineRun : ∃ (s s' : State (Fin 2) Bool) (h : WaitHistory (Fin 2)),
    WaitRecorded flagEnv false (s, h) ∧ step flagEnv 0 (.step .run) s = some s' ∧
    s'.pc 0 = .client (some .writer) ∧ s'.result 0 = .timedOut ∧ h.remover 0 = some 0 ∧
    h.sem 0 = .timedOut := by
  obtain ⟨s, hs, hf⟩ := Reachable.exists_of_exec (E := flagEnv) (P := Regular) (x := false)
    deadlineRun (fun s => decide ((s.pc 0).muWait?.isSome = true ∧
      Regular 0 (.step .run) s ∧
      ((step flagEnv 0 (.step .run) s).any fun s' =>
        decide (s'.pc 0 = .client (some .writer) ∧ s'.result 0 = .timedOut)) = true))
      (by decide +kernel)
  obtain ⟨hl, hP, hstep⟩ := of_decide_eq_true hf
  obtain ⟨l, hl⟩ := Option.isSome_iff_exists.mp hl
  obtain ⟨s', hs', hend⟩ := (Option.any_eq_true _ _).mp hstep
  obtain ⟨hret, hres⟩ := of_decide_eq_true hend
  obtain ⟨h, hh⟩ := Reach.exists_history (fun i s s' h => h.next i.1 i.2 s s') WaitHistory.empty hs
  obtain ⟨-, m, c, e, -, -, -, hnot, -⟩ := (muWait_result hh).1 0 _ s' l _ hP hs' hl hret
  obtain ⟨hrem, hsem⟩ := hnot (by rw [hres]; decide)
  exact ⟨s, s', h, hh, hs', hret, hres, hrem, hsem.symm.trans hres⟩

end

end Nsync.Mu
