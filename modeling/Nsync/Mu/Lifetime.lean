import Nsync.Mu.Stranded
import Nsync.Mu.WaitCall

/-!
# How long an unlocker needs the mutex

A thread that gives up the mutex early in `nsync_mu_unlock_slow_` goes on using
the queue and the word.  It does so only when `MU_WAITING` is set and
`MU_CONDITION` is not, and then a waiter is on the queue, whose thread needs the
mutex for longer.
-/

namespace Nsync.Mu

open Nsync.Lib

variable {T σ : Type} [DecidableEq T]

/-! ## Conditional waiters have conditions -/

/-- A thread that waits in `nsync_mu_wait_with_deadline` has a condition. -/
def Pc.Conditioned (p : Pc T) : Prop :=
  ∀ l, p.muWait? = some l → l.condition ≠ none ∨ p = .muWait l .loadWord ∨
    p = .muWait l .evalCondition

section

variable {E : Env σ} {C : WaitCondition → Prop} {s s' : State T σ} {t u : T} {act : Act σ}

theorem muWait_condition {l l' : MuWait} {ch : Choice} {p : MuWaitPc}
    (hs : muWaitWithDeadline E s t l ch p = some s') (hl' : (s'.pc t).muWait? = some l') :
    l'.condition = l.condition := by
  rcases p with _ | _ | _ | _ | ⟨_ | _⟩ | ⟨_ | _⟩ | _ | _ | _ | _ | _ | _ | _ | _ | ⟨_, _ | _⟩ |
    _ | _ | _ | _ <;>
    simp only [muWaitWithDeadline, startLockSlow, semWaitWithCancel, semP] at hs <;>
    repeat' split at hs
  all_goals
    cases hs <;>
    · rw [State.setPc_self] at hl'
      first
      | (cases hl'; done)
      | (cases hl'; rfl)

theorem muWait_conditioned {l : MuWait} {ch : Choice} {p : MuWaitPc}
    (hc : (Pc.muWait l p : Pc T).Conditioned)
    (hs : muWaitWithDeadline E s t l ch p = some s') : (s'.pc t).Conditioned := by
  intro l' hl'
  rw [muWait_condition hs hl']
  rcases hc l rfl with hl | hl | hl
  · exact Or.inl hl
  · cases hl
    simp only [muWaitWithDeadline] at hs
    split at hs <;> cases hs <;> rw [State.setPc_self] at hl' ⊢
    · cases hl'
    · cases hl'
      exact Or.inr (Or.inr rfl)
  · cases hl
    -- the wait goes on only if the condition is false
    cases hcond : l.condition with
    | some c => exact Or.inl (by rintro ⟨⟩)
    | none =>
        simp only [muWaitWithDeadline, hcond, Bool.true_eq_false, and_false, if_false] at hs
        cases hs
        rw [State.setPc_self] at hl'
        cases hl'

theorem conditioned_step {w : Waiter} (hok : (s.pc t).Ok C w) (hc : (s.pc t).Conditioned)
    (hs : step E t act s = some s') : (s'.pc t).Conditioned := by
  intro l hl
  rcases step_muWait? hok hs hl with
    ⟨c, e, m, -, hpc, hcall⟩ | ⟨ch, l₀, p, -, hpc, hstep⟩ | ⟨hl₀, hne, -⟩ | rfl
  · cases hcall
    rw [State.setPc_self] at hl ⊢
    cases hl
    exact Or.inr (Or.inl rfl)
  · rw [hpc] at hc
    exact muWait_conditioned hc hstep l hl
  · rcases hc l hl₀ with hcond | hpc | hpc
    · exact Or.inl hcond
    · exact (hne _ _ hpc).elim
    · exact (hne _ _ hpc).elim
  · cases hs
    exact hc l hl

end

/-! ## Who is there when the word says so -/

section

variable {E : Env σ} {C : WaitCondition → Prop} {a a' : AState T σ} {t u x : T}

/-- `MU_WAITING` without `MU_CONDITION` stands for a waiter, or for an unlocker that
has the queue. -/
def Occupied (a : AState T σ) : Prop :=
  a.v.waiting = true → a.v.cond = true ∨ (∃ x, a.Waits x) ∨ ∃ u, (a.th u).region = true

theorem Occupied.step [Fintype T] (h : Occupied a) (hi : AInv E C a) (hp' : PlaceInv C a')
    (hs : AStep E C t a a') (hdbg : ∀ w, (a.th t).spin ≠ .dbg w)
    (hmine : (a.th t).phase = .muMine → (a.wtr t).cond ≠ none)
    (hxfer : (∀ b, (a.th t).spin ≠ .xfer b) →
      ∀ b, (a'.th t).spin = .xfer b → ∃ x, a'.loc x = .muQ) : Occupied a' := by
  intro hw
  have hold : a.v.waiting = true → a'.v.cond = a.v.cond →
      ((a.th t).region = true → (a'.th t).region = true) →
      a'.v.cond = true ∨ (∃ x, a'.Waits x) ∨ ∃ u, (a'.th u).region = true := by
    intro hw₀ hcond hself
    rcases h hw₀ with hc | ⟨x, hx⟩ | ⟨u, hu⟩
    · exact Or.inl (hcond.trans hc)
    · rcases hs.waits_step hi.place hp' hx with hx' | ⟨-, hreg⟩ | ⟨-, hph⟩
      · exact Or.inr (Or.inl ⟨x, hx'⟩)
      · exact Or.inr (Or.inr ⟨t, hself hreg⟩)
      · -- a waiter that removes itself after a timeout had a condition
        have hq : a.loc t = .muQ := by
          have hc := hi.place.compat t
          rw [hph] at hc
          exact hc.1
        exact Or.inl (hcond.trans (hi.queue.cond t (Or.inl hq) (hmine hph)))
    · by_cases hut : u = t
      · subst hut
        exact Or.inr (Or.inr ⟨u, hself hu⟩)
      · exact Or.inr (Or.inr ⟨u, by rw [hs.th_of_ne hut, hu]⟩)
  cases hs with
  | enqueue => exact Or.inr (Or.inl ⟨t, Or.inr (by simp)⟩)
  | muEnqueue => exact Or.inr (Or.inl ⟨t, Or.inl (Or.inl (by simp))⟩)
  | transfer xs b hsp =>
      obtain ⟨x, hx⟩ := hxfer (by simp [hsp]) b (by simp)
      exact Or.inr (Or.inl ⟨x, Or.inl (Or.inl hx)⟩)
  | grab _ _ _ _ _ _ _ _ hp | retake _ _ _ hp | next hp =>
      exact Or.inr (Or.inr ⟨t, hp.region_eq.2⟩)
  | final r hsp =>
      have hsome : ¬ r.noneLeft = true := by
        simp only [AState.setTh, AState.setV, View.final, Bool.and_eq_true] at hw
        simpa using hw.2
      rw [(hi.queue.fin t r hsp).noneLeft] at hsome
      push Not at hsome
      obtain ⟨x, hx⟩ := hsome
      exact Or.inr (Or.inl ⟨x, Or.inl (Or.inl (by simpa using hx))⟩)
  | acquire m | release m | muRelease m =>
      refine hold (by cases m <;> exact hw) (by cases m <;> rfl) fun hr => by simpa using hr
  | tryDone m old hsp | tryFail old hsp =>
      -- the word that is written back has the bits of the word now
      have hv := (hi.lock.hold t old hsp).1
      refine hold ?_ ?_ fun hr => by simpa using hr
      · rw [hv]
        first
        | exact hw
        | (cases m <;> exact hw)
      · rw [hv]
        first
        | rfl
        | (cases m <;> rfl)
  | dbgStore w hsp => exact (hdbg w hsp).elim
  | stutter | dequeue | wake | setWriterWaiting | select | cvWake | mutate => exact hold hw rfl id
  | _ => exact hold hw rfl fun hr => by simpa using hr

/-- Whoever may give up the mutex early finds a waiter on the queue. -/
theorem Occupied.exists_queued [Fintype T] (h : Occupied a) (hi : AInv E C a) {m : Mode}
    (hlock : (a.th t).lock = some m) (hr : (a.th t).region = false) (hspin : a.v.spin = false)
    (hw : a.v.waiting = true) (hc : a.v.cond = false) : ∃ x, a.loc x = .muQ := by
  -- an unlocker that has the queue holds the spinlock or the mutex
  have hregion : ∀ u, ¬ (a.th u).region = true := by
    intro u hu
    rcases (hi.lock.wf u).region hu with hsp | hwr
    · exact hsp (hi.lock.no_spin hspin u)
    · have := hi.lock.shares.eq_of_writer hwr hlock
      subst this
      simp [hr] at hu
  rcases h hw with hcond | ⟨x, (hx | ⟨u, hx⟩) | hx⟩ | ⟨u, hu⟩
  · simp [hc] at hcond
  · exact ⟨x, hx⟩
  · exact (hregion u (hi.place.priv x u hx).1).elim
  · simp [hi.lock.no_spin hspin x] at hx
  · exact (hregion u hu).elim

end

/-! ## Inside a call that releases the mutex -/

/-- The thread is in `nsync_mu_unlock`, `nsync_mu_runlock` or
`nsync_mu_unlock_without_wakeup`, called by a client or by `nsync_cv_wait`. -/
def Pc.unlocking : Pc T → Option UnlockCont
  | .unlock _ .ret _ | .unlockSlow _ .ret _ => some .ret
  | .unlock _ (.cvWait l) _ | .unlockSlow _ (.cvWait l) _ => some (.cvWait l)
  | _ => none

/-- An unlocker that may still access the word or the queue of the mutex: it is not
past the last CAS of `nsync_mu_unlock_slow_`. -/
def Pc.usesMu : Pc T → Bool
  | .unlock _ _ _ => true
  | .unlockSlow _ _ p =>
      match p with
      | .wakeStore _ _ | .wakeSem _ _ => false
      | _ => true
  | _ => false

section

variable {E : Env σ} {C : WaitCondition → Prop} {s s' s'' : State T σ} {t u : T} {act : Act σ}
  {x : σ}

omit [DecidableEq T] in
theorem Pc.region_of_usesMu {p : Pc T} (hp : p.usesMu = true) (hl : p.lockRole = none) :
    p.region = true := by
  cases p with
  | unlock kind k p => cases hl
  | unlockSlow m k p => cases p <;> first | rfl | (cases hp; done) | cases hl
  | _ => cases hp

omit [DecidableEq T] in
/-- Only a thread that removes itself from the queue has found itself there. -/
theorem Pc.eq_of_muMine {p : Pc T} (hp : p.phase = .muMine) :
    ∃ l old lc, p = .muWait l (.tryRemove old lc) := by
  cases p with
  | lockSlow l k p =>
      cases p <;> simp only [Pc.phase, reduceCtorEq] at hp
      all_goals split at hp <;> cases hp
  | unlock kind k p => cases k <;> cases hp
  | unlockSlow m k p => cases k <;> cases hp
  | muWait l p =>
      cases p <;> simp only [Pc.phase, reduceCtorEq] at hp
      case tryRemove old lc => exact ⟨l, old, lc, rfl⟩
      all_goals split at hp <;> cases hp
  | cvWait l p =>
      cases p <;> simp only [Pc.phase, reduceCtorEq] at hp
      all_goals split at hp <;> cases hp
  | _ => cases hp

/-- After its last CAS an unlocker only wakes waiters. -/
theorem step_spent {k : UnlockCont} (hk : (s.pc t).unlocking = some k)
    (hsp : (s.pc t).usesMu = false) (hs : step E t act s = some s') :
    (s'.pc t).usesMu = false := by
  obtain ⟨m, k, p, hpc⟩ : ∃ m k p, s.pc t = .unlockSlow m k p := by
    cases hpc : s.pc t with
    | unlockSlow m k p => exact ⟨m, k, p, rfl⟩
    | unlock => simp [hpc, Pc.usesMu] at hsp
    | _ => simp [hpc, Pc.unlocking] at hk
  have hwake : ∀ (s₁ : State T σ) wake, ((wakeNext s₁ t m k wake).pc t).usesMu = false := by
    intro s₁ wake
    cases wake with
    | nil =>
        rw [wakeNext, afterUnlock_eq, State.setPc_self]
        cases k <;> rfl
    | cons y wake =>
        rw [wakeNext, State.setPc_self]
        rfl
  cases act with
  | post =>
      cases hs
      exact hsp
  | call c =>
      simp only [step, hpc] at hs
      cases hs
  | step ch =>
      simp only [step, hpc, Option.some.injEq] at hs
      subst hs
      cases p with
      | wakeStore y wake =>
          rw [muUnlockSlow, State.setPc_self]
          rfl
      | wakeSem y wake => exact hwake _ wake
      | _ => simp [hpc, Pc.usesMu] at hsp

variable [Fintype T]

/-- Steps taken while `t` is in its call. -/
def Within (t u : T) (act : Act σ) (s : State T σ) : Prop :=
  Regular u act s ∧ (s.pc t).unlocking ≠ none

/-- In a later state of its call, `t` may still access the mutex. -/
def UsesMuLater (E : Env σ) (t : T) (s : State T σ) : Prop :=
  ∃ s', Runs E (Within t) s s' ∧ (s'.pc t).unlocking ≠ none ∧ (s'.pc t).usesMu = true

theorem UsesMuLater.now (h : UsesMuLater E t s) : (s.pc t).usesMu = true := by
  obtain ⟨s', hrun, -, huse⟩ := h
  by_contra hno
  rw [Bool.not_eq_true] at hno
  have hlast : (s'.pc t).usesMu = false := by
    refine hrun.invariant (I := fun s => (s.pc t).usesMu = false) hno ?_
    intro u act s₁ s₂ _ hsp hW hs
    rcases eq_or_ne u t with rfl | hut
    · obtain ⟨k, hk⟩ := Option.ne_none_iff_exists'.mp hW.2
      exact step_spent hk hsp hs
    · rwa [step_pc_of_ne (Ne.symm hut) hs]
  simp [hlast] at huse

/-- The word never stands for a queue that is not there, in runs without debugging
output. -/
theorem Reachable.occupied (h : Reachable E Regular x s) :
    ∃ loc, Good E (fun _ => True) s loc ∧ Occupied (s.abs loc) := by
  have key : (∃ loc, Good E (fun _ => True) s loc ∧ Occupied (s.abs loc)) ∧
      (∀ u, (s.pc u).KnowsModes s.wtr) ∧ ∀ u, (s.pc u).Conditioned := by
    refine h.invariant (I := fun s => (∃ loc, Good E (fun _ => True) s loc ∧
      Occupied (s.abs loc)) ∧ (∀ u, (s.pc u).KnowsModes s.wtr) ∧ ∀ u, (s.pc u).Conditioned)
      ⟨⟨_, Good.initial E _ x, fun hw => ?_⟩, fun _ => trivial, fun u l hl => by cases hl⟩ ?_
    · simp [State.abs, initial, view] at hw
    rintro t act s₁ s₂ hr ⟨⟨loc, hg, hocc⟩, hk, hcond⟩ hP hs
    have hdbg := (hr.good_of_noDebug (C := fun _ => True) fun _ a _ hP =>
      ⟨a.condIn_true, hP.1, hP.2⟩).2
    obtain ⟨loc', hstep, hg'⟩ := step_simulates hg hP.2 act.condIn_true hs
    have hg' := hg' fun u w _ hw => (Pc.spinRole_ne_dbg (hdbg u) w hw).elim
    refine ⟨⟨loc', hg', hocc.step hg.inv hg'.inv.place hstep (Pc.spinRole_ne_dbg (hdbg t)) ?_ ?_⟩,
      knowsModes_step hk hg hstep hs, fun u => ?_⟩
    · intro hph
      obtain ⟨l, old, lc, hpc⟩ := Pc.eq_of_muMine hph
      have hok := (hg.pcs t).ok
      rw [hpc] at hok
      have harmed : Pc.MuArmed l (s₁.wtr t) := hok.2.2.2
      have hsome : l.condition ≠ none := by
        rcases hcond t l (by rw [hpc]; rfl) with hl | hl | hl
        · exact hl
        · rw [hpc] at hl
          cases hl
        · rw [hpc] at hl
          cases hl
      change (s₁.wtr t).cond ≠ none
      rwa [harmed.2]
    · intro hno b hb
      obtain ⟨y, hy⟩ := List.exists_mem_of_ne_nil _ (step_xfer (hk t) (hg.pcs t).ok hs hno hb)
      exact ⟨y, (hg'.lists.muQ.mem y).mp hy⟩
    · rcases eq_or_ne u t with rfl | hut
      · exact conditioned_step (hg.pcs u).ok (hcond u) hs
      · rw [step_pc_of_ne hut hs]
        exact hcond u
  exact key.1

/-- When a thread in `nsync_mu_unlock`, `nsync_mu_runlock` or
`nsync_mu_unlock_without_wakeup` gives up the mutex and may access it again before
the call returns, a waiter is on the queue at that step: one of another thread, or,
if the caller is `nsync_cv_wait`, its own. -/
theorem unlocker_needs_waiter (h : Reachable E Regular x s) (hP : Regular t act s)
    (hs : step E t act s = some s') {k : UnlockCont} (hk : (s.pc t).unlocking = some k)
    (hheld : (s.pc t).lockRole ≠ none) (hgiven : (s'.pc t).lockRole = none)
    (hlater : UsesMuLater E t s') : ∃ y ∈ s.waiters, y ≠ t ∨ ∃ l, k = .cvWait l := by
  obtain ⟨loc, hg, hocc⟩ := h.occupied
  have hdbg := (h.good_of_noDebug (C := fun _ => True) fun _ a _ hP =>
    ⟨a.condIn_true, hP.1, hP.2⟩).2
  obtain ⟨loc', hstep, hg'⟩ := step_simulates hg hP.2 act.condIn_true hs
  have hregion : ((s'.abs loc').th t).region = true := Pc.region_of_usesMu hlater.now hgiven
  have hlock : ((s.abs loc).th t).lock ≠ none := hheld
  have hlock' : ((s'.abs loc').th t).lock = none := hgiven
  obtain ⟨y, hy⟩ : ∃ y, (s.abs loc).loc y = .muQ := by
    generalize s'.abs loc' = a' at hstep hregion hlock'
    cases hstep with
    | grab m testing hl hsp hr hspin hv ht hp =>
        -- only this step enters the region without the mutex
        have htest : testing = false := by
          have := hp.lock_eq
          cases testing <;> simp_all
        refine hocc.exists_queued hg.inv hl hr hspin ?_ (ht.symm.trans htest)
        by_contra hw
        exact hv (Or.inl (by simpa using hw))
    | release m b hl hsp hr | muRelease m hl hsp hr => simp [hr] at hregion
    | final => simp at hregion
    | tryFail old hsp hp hr => simp [hr] at hregion
    | acquire | tryAcquire | tryDone => simp at hlock'
    | retake hsp hr hspin hp | next hp =>
        have := hp.lock_eq
        simp_all
    | _ => exact (hlock (by simpa using hlock')).elim
  refine ⟨y, (hg.lists.muQ.mem y).mpr hy, ?_⟩
  rcases eq_or_ne y t with rfl | hyt
  · right
    have hc : Compat (loc y) (s.wtr y).core (s.pc y).phase := hg.inv.place.compat y
    have hq : loc y = .muQ := hy
    cases hpc : s.pc y with
    | unlock kind k' p | unlockSlow m k' p =>
        rw [hpc] at hc hk
        cases k' with
        | ret =>
            rw [hq] at hc
            cases hc
        | muWait l => cases hk
        | cvWait l =>
            cases hk
            exact ⟨l, rfl⟩
    | _ => simp [hpc, Pc.unlocking] at hk
  · exact Or.inl hyt

end

/-- Thread 0 is about to give up the mutex and to go on using it. -/
def aboutToGive (s : State (Fin 2) Bool) : Bool :=
  (s.pc 0).unlocking.isSome && (s.pc 0).lockRole.isSome && decide (Regular 0 (.step .run) s) &&
    (step flagEnv 0 (.step .run) s).any fun s' =>
      (s'.pc 0).unlocking.isSome && (s'.pc 0).lockRole.isNone && (s'.pc 0).usesMu

theorem of_aboutToGive {s : State (Fin 2) Bool} (h : aboutToGive s = true) :
    ∃ s' k, (s.pc 0).unlocking = some k ∧ Regular 0 (.step .run) s ∧
      step flagEnv 0 (.step .run) s = some s' ∧ (s.pc 0).lockRole ≠ none ∧
      (s'.pc 0).lockRole = none ∧ UsesMuLater flagEnv 0 s' := by
  simp only [aboutToGive, Bool.and_eq_true, decide_eq_true_eq, Option.any_eq_true,
    Option.isSome_iff_exists, Option.isNone_iff_eq_none] at h
  obtain ⟨⟨⟨⟨k, hk⟩, ⟨m, hm⟩⟩, hreg⟩, s', hs', ⟨⟨k', hk'⟩, hgiven⟩, huse⟩ := h
  exact ⟨s', k, hk, hreg, hs', by simp [hm], hgiven, s', .start, by simp [hk'], huse⟩

/-- A writer releases the mutex while another one is queued. -/
theorem unlocker_needs_waiter_queued : ∃ s s' : State (Fin 2) Bool,
    Reachable flagEnv Regular false s ∧ step flagEnv 0 (.step .run) s = some s' ∧
    UsesMuLater flagEnv 0 s' ∧
    ∃ y ∈ s.waiters, y ≠ 0 ∨ ∃ l, (s.pc 0).unlocking = some (.cvWait l) := by
  obtain ⟨s, hs, hf⟩ := Reachable.exists_of_exec (E := flagEnv) (P := Regular) (x := false)
    ([(0, .call (.lock .writer))] ++ goOn 0 1 ++ [(1, .call (.lock .writer))] ++ goOn 1 8 ++
      [(0, .call (.unlock .unlock))] ++ goOn 0 3) aboutToGive (by decide +kernel)
  obtain ⟨s', k, hk, hreg, hs', hheld, hgiven, hlater⟩ := of_aboutToGive hf
  obtain ⟨y, hy, hyt⟩ := unlocker_needs_waiter hs hreg hs' hk hheld hgiven hlater
  refine ⟨s, s', hs, hs', hlater, y, hy, hyt.imp id ?_⟩
  rintro ⟨l, rfl⟩
  exact ⟨l, hk⟩

/-- A thread that waits on a condition variable is moved to the queue of the mutex
before it has released it, and nobody else is there. -/
theorem unlocker_finds_own_waiter : ∃ s s' : State (Fin 2) Bool,
    Reachable flagEnv Regular false s ∧ Regular 0 (.step .run) s ∧
    step flagEnv 0 (.step .run) s = some s' ∧ (s.pc 0).unlocking ≠ none ∧
    (s.pc 0).lockRole ≠ none ∧ (s'.pc 0).lockRole = none ∧ UsesMuLater flagEnv 0 s' ∧
    ¬ ∃ y ∈ s.waiters, y ≠ 0 := by
  obtain ⟨s, hs, hf⟩ := Reachable.exists_of_exec (E := flagEnv) (P := Regular) (x := false)
    ([(0, .call (.lock .writer))] ++ goOn 0 1 ++ [(0, .call (.cvWait 1 false))] ++ goOn 0 6 ++
      [(1, .call (.signal 1 false))] ++ goOn 1 10 ++ goOn 0 3)
    (fun s => aboutToGive s && decide (s.waiters = [0])) (by decide +kernel)
  rw [Bool.and_eq_true, decide_eq_true_eq] at hf
  obtain ⟨s', k, hk, hreg, hs', hheld, hgiven, hlater⟩ := of_aboutToGive hf.1
  refine ⟨s, s', hs, hreg, hs', by simp [hk], hheld, hgiven, hlater, ?_⟩
  rw [hf.2]
  simp

end Nsync.Mu
