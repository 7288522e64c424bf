import Nsync.Mu.CvHistory

/-!
# No wake-up is lost or swallowed
-/

namespace Nsync.Mu

open Nsync.Lib

variable {T σ : Type}

section

variable [DecidableEq T] [Fintype T] {E : Env σ} {C : WaitCondition → Prop} {s s' : State T σ}
  {loc loc' : T → Loc T} {t x : T} {h : CvHistory T} {a : Act σ}

/-- The queues are in the order of arrival, and the threads stand where the
history wants them. -/
structure CvFits (s : State T σ) (h : CvHistory T) : Prop where
  before : ∀ c, ∀ x ∈ (s.cv c).waiters, h.since x < h.now
  order : ∀ c, (s.cv c).waiters.Pairwise fun x y => h.since x < h.since y
  pend : ∀ u, (s.pc u).PendOk (h.pend u)
  wait : ∀ u, WaitFits s h u

omit [DecidableEq T] [Fintype T] in
theorem cvFits_initial (y : σ) : CvFits (initial y : State T σ) CvHistory.empty where
  before _ _ hx := by cases hx
  order _ := List.Pairwise.nil
  pend _ := rfl
  wait _ := ⟨nofun, nofun, nofun, nofun⟩

omit [DecidableEq T] [Fintype T] in
/-- A waiter that was queued already keeps its time. -/
theorem CvHistory.since_of_mem (hl' : Lists s' loc') {c : Addr} (hx : x ∈ (s.cv c).waiters)
    (hx' : x ∈ (s'.cv c).waiters) : (h.next t a s s').since x = h.since x := by
  refine if_neg ?_
  rintro ⟨d, hd, hd'⟩
  have hc := ((hl'.cvQ c).mem x).mp hx'
  rw [((hl'.cvQ d).mem x).mp hd', Loc.cvQ.injEq] at hc
  subst hc
  exact hd hx

theorem CvFits.queue_step (hf : CvFits s h) (hg' : Good E C s' loc')
    (hop : (s.pc t).op ≠ .debug) (hstep : step E t a s = some s') (c : Addr) :
    (∀ x ∈ (s'.cv c).waiters, (h.next t a s s').since x < h.now + 1) ∧
      (s'.cv c).waiters.Pairwise
        fun x y => (h.next t a s s').since x < (h.next t a s s').since y := by
  rcases step_cvQueue hstep hop c with hsub | happ
  · have hkeep : ∀ x ∈ (s'.cv c).waiters, (h.next t a s s').since x = h.since x :=
      fun x hx => CvHistory.since_of_mem hg'.lists (hsub.subset hx) hx
    constructor
    · intro x hx
      rw [hkeep x hx]
      exact (hf.before c x (hsub.subset hx)).trans h.now.lt_succ_self
    · refine ((hf.order c).sublist hsub).imp_of_mem fun hx hz hlt => ?_
      rwa [hkeep _ hx, hkeep _ hz]
  · have hnodup := (hg'.lists.cvQ c).nodup
    rw [happ, List.nodup_append] at hnodup
    have hnew : t ∉ (s.cv c).waiters := fun ht => hnodup.2.2 t ht t (by simp) rfl
    have hkeep : ∀ x ∈ (s.cv c).waiters, (h.next t a s s').since x = h.since x :=
      fun x hx => CvHistory.since_of_mem hg'.lists hx (by simp [happ, hx])
    have hnow : (h.next t a s s').since t = h.now := if_pos ⟨c, hnew, by simp [happ]⟩
    rw [happ]
    constructor
    · intro x hx
      rcases List.mem_append.mp hx with hx | hx
      · rw [hkeep x hx]
        exact (hf.before c x hx).trans h.now.lt_succ_self
      · rw [List.mem_singleton.mp hx, hnow]
        exact h.now.lt_succ_self
    · refine List.pairwise_append.mpr ⟨?_, List.pairwise_singleton .., fun x hx z hz => ?_⟩
      · refine (hf.order c).imp_of_mem fun hx hz hlt => ?_
        rwa [hkeep _ hx, hkeep _ hz]
      · rw [List.mem_singleton.mp hz, hnow, hkeep x hx]
        exact hf.before c x hx

omit [Fintype T] in
theorem CvFits.pend_step (hf : CvFits s h) (hk : CvKnown s)
    (hnd : ∀ c, (s.cv c).waiters.Nodup) (hstep : step E t a s = some s') (u : T) :
    (s'.pc u).PendOk ((h.next t a s s').pend u) := by
  rcases eq_or_ne u t with rfl | hut
  · have hpend : (h.next u a s s').pend u = stillQueued s' ((a.aims s u).getD (h.pend u)) := by
      simp [CvHistory.next]
    rw [hpend]
    -- outside a signal the thread has nothing to remove
    have hoff : (∀ l p, s.pc u ≠ .signal l p) → a.aims s u = none →
        (s'.pc u).PendOk (stillQueued s' ((a.aims s u).getD (h.pend u))) := by
      intro hp haims
      rw [haims, Option.getD_none, (hf.pend u).eq_nil hp]
      exact Pc.pendOk_nil _
    cases a with
    | post =>
        cases hstep
        exact (hf.pend u).mono (stillQueued_subset _)
    | call c =>
        refine hoff ?_ rfl
        simp only [step] at hstep
        split at hstep
        · next held hpc =>
            rw [hpc]
            rintro _ _ ⟨⟩
        · cases hstep
    | step ch =>
        by_cases hp : ∃ l p, s.pc u = .signal l p
        · obtain ⟨l, p, hpc⟩ := hp
          simp only [step, hpc, Option.some.injEq] at hstep
          subst hstep
          exact cvSignal_pendOk hk hnd hpc (hf.pend u)
        · push Not at hp
          refine hoff hp ?_
          change (s.pc u).aims s = none
          generalize s.pc u = p at hp
          cases p with
          | signal l p => exact (hp l p rfl).elim
          | _ => rfl
  · have hpend : (h.next t a s s').pend u = stillQueued s' (h.pend u) := by
      simp [CvHistory.next, hut]
    rw [hpend, step_pc_of_ne hut hstep]
    exact (hf.pend u).mono (stillQueued_subset _)

theorem CvFits.step (hf : CvFits s h) (hk : CvKnown s) (hg : Good E C s loc)
    (hg' : Good E C s' loc') (hs : AStep E C t (s.abs loc) (s'.abs loc'))
    (hop : (s.pc t).op ≠ .debug) (hstep : step E t a s = some s') :
    CvFits s' (h.next t a s s') where
  before c := (hf.queue_step hg' hop hstep c).1
  order c := (hf.queue_step hg' hop hstep c).2
  pend := hf.pend_step hk (fun c => (hg.lists.cvQ c).nodup) hstep
  wait u := by
    rcases eq_or_ne u t with rfl | hut
    · exact (hf.wait u).step_self hg hg' hop hstep
    · exact (hf.wait u).step_other hut hg hg' hs hstep

/-! ## Runs -/

/-- The states that regular runs reach, with the histories of the condition
variables. -/
def CvRecorded (E : Env σ) (x : σ) : State T σ × CvHistory T → Prop :=
  Reach (withHistory (fun (i : T × Act σ) s => step E i.1 i.2 s)
    fun i s s' h => h.next i.1 i.2 s s') (fun i p => Regular i.1 i.2 p.1)
    (initial x, CvHistory.empty)

variable {y : σ}

theorem CvRecorded.reachable (hr : CvRecorded E y (s, h)) : Reachable E Regular y s :=
  Reach.forget_history hr

theorem CvRecorded.fits (hr : CvRecorded E y (s, h)) : CvFits s h := by
  refine Reach.invariant hr (I := fun p => CvFits p.1 p.2) (cvFits_initial y) ?_
  rintro i ⟨s₁, h₁⟩ p hr₁ hf hP hs
  obtain ⟨s₂, hs₂, rfl⟩ := Option.map_eq_some_iff.mp hs
  have hreach := CvRecorded.reachable hr₁
  obtain ⟨loc, loc', hg, hg', hstep⟩ := hreach.step_of_regular hP hs₂
  have hop := (hreach.good_of_noDebug (C := fun _ => True) fun _ a _ hP =>
    ⟨a.condIn_true, hP.1, hP.2⟩).2
  exact hf.step hreach.cvKnown hg hg' hstep (hop i.1) hs₂

omit [Fintype T] in
theorem afterLock_result {s : State T σ} {l : CvWait} {m : Mode} :
    (afterLock s t m (.cvWait l)).result t = l.outcome := by
  simp [afterLock]

omit [Fintype T] in
/-- A wait on a condition variable returns when it has the mutex again, and its
result is the outcome it has decided on. -/
theorem step_cvWait_returns {m : Mode} {w : Waiter} {held : Option Mode}
    (hok : (s.pc t).Ok C w) (hstep : step E t a s = some s') (hop : (s.pc t).op = .cvWait m)
    (hret : s'.pc t = .client held) :
    s'.cv = s.cv ∧ ∃ l, (s.pc t).cvLocals = some l ∧ s'.result t = l.outcome ∧
      (s.pc t).cvMine = false := by
  have hne : ∀ {s₁ : State T σ} {p : Pc T} {P : Prop}, (s₁.setPc t p).pc t = .client held →
      (∀ b, p ≠ .client b) → P := by
    intro s₁ p P h hp
    rw [State.setPc_self] at h
    exact (hp held h).elim
  cases a with
  | post =>
      cases hstep
      have hret : s.pc t = .client held := hret
      rw [hret] at hop
      cases hop
  | call c =>
      simp only [step] at hstep
      split at hstep
      · next held' hpc =>
          rw [hpc] at hop
          cases hop
      · cases hstep
  | step ch =>
      simp only [step] at hstep
      cases hpc : s.pc t <;> simp only [hpc, Option.some.injEq] at hstep <;> rw [hpc] at hop hok
      case lock m b k p =>
        cases k <;> simp only [Pc.op, LockCont.op, reduceCtorEq, Op.cvWait.injEq] at hop
        case cvWait l =>
          cases b with
          | true => cases hok.2.1 rfl
          | false =>
              cases p <;> simp only [muLock, startLockSlow, Bool.false_eq_true, if_false] at hstep
              all_goals split at hstep
              all_goals
                subst hstep
                first
                | exact ⟨rfl, l, rfl, afterLock_result, rfl⟩
                | exact hne hret fun _ => (by rintro ⟨⟩)
      case lockSlow l' k p =>
        cases k <;> simp only [Pc.op, LockCont.op, reduceCtorEq, Op.cvWait.injEq] at hop
        case cvWait l =>
          rcases p with _ | _ | _ | _ | ⟨_ | _⟩ | _ | _ <;> simp only [muLockSlow] at hstep
          case sem =>
            rw [semP_pc hstep] at hret
            cases hret
          all_goals repeat' split at hstep
          all_goals
            cases hstep
            first
            | exact ⟨rfl, l, rfl, afterLock_result, rfl⟩
            | exact hne hret fun _ => (by rintro ⟨⟩)
      case unlock kind k p =>
        cases k <;> simp only [Pc.op, UnlockCont.op, reduceCtorEq, Op.cvWait.injEq] at hop
        case cvWait l =>
          subst hstep
          cases p <;> simp only [muUnlock] at hret <;> repeat' split at hret
          all_goals exact hne hret fun _ => (by rintro ⟨⟩)
      case unlockSlow m k p =>
        cases k <;> simp only [Pc.op, UnlockCont.op, reduceCtorEq, Op.cvWait.injEq] at hop
        case cvWait l =>
          subst hstep
          obtain ⟨q, hq, hcase⟩ := muUnlockSlow_goes (E := E) (s := s) (t := t) m (.cvWait l) p
          rw [hq, Function.update_self] at hret
          subst hret
          rcases hcase with hq | hq | ⟨p', hq⟩ <;> cases hq
      case cvWait l p =>
        rcases p with _ | _ | ⟨_ | _⟩ | _ | _ | _ | _ | _ | ⟨_ | _⟩ | _ | _ | ⟨_, _ | _⟩ | _ | _ |
            _ <;>
          simp only [cvWaitWithDeadline] at hstep
        case sem =>
          obtain ⟨o, hpc'⟩ := semWaitWithCancel_pc hstep
          rw [hpc'] at hret
          cases hret
        all_goals repeat' split at hstep
        all_goals
          cases hstep
          exact hne hret fun _ => (by rintro ⟨⟩)
      all_goals cases hop

omit [DecidableEq T] [Fintype T] in
/-- A waiter is on the queue before its mutex is released. -/
theorem Pc.cvLocals_of_released {p : Pc T} {m : Mode} (hop : p.op = .cvWait m)
    (hrole : p.lockRole = none) : ∃ l, p.cvLocals = some l := by
  cases p with
  | lock _ _ k _ | lockSlow _ k _ => cases k <;> first | exact ⟨_, rfl⟩ | cases hop
  | unlock _ k _ | unlockSlow _ k _ => cases k <;> first | exact ⟨_, rfl⟩ | cases hop
  | cvWait l p => cases p <;> first | exact ⟨_, rfl⟩ | cases hrole
  | _ => cases hop

/-- While the spinlock of a condition variable is free its word tells whether its
queue is empty.  A queued waiter is seen by the first load of a signal or a
broadcast; a broadcast removes what it has seen before it returns, and a signal the
first waiter, which has waited longest.  A wait that has released its mutex is
queued until it is removed, and its result tells by whom. -/
theorem cv_wakeups (hr : CvRecorded E y (s, h)) :
    (∀ c, (s.cv c).word &&& cvSpinlock = 0#32 →
      ((s.cv c).word &&& cvNonEmpty ≠ 0#32 ↔ (s.cv c).waiters ≠ [])) ∧
    (∀ t l ch s', s.pc t = .signal l .loadWord → (s.cv l.pcv).waiters ≠ [] →
      step E t (.step ch) s = some s' → s'.pc t = .signal l (.spin .load)) ∧
    (∀ t, (∀ l p, s.pc t ≠ .signal l p) → h.pend t = []) ∧
    (∀ c, (s.cv c).waiters.Pairwise fun x z => h.since x < h.since z) ∧
    (∀ x m, (s.pc x).op = .cvWait m → (s.pc x).lockRole = none → ∃ l,
      (s.pc x).cvLocals = some l ∧
        (x ∈ (s.cv l.pcv).waiters ∨ h.signalled x = true ∨ h.selfRemoved x = true)) ∧
    ∀ t a s' m held, Regular t a s → step E t a s = some s' → (s.pc t).op = .cvWait m →
      s'.pc t = .client held →
        s'.result t = .ok ∧ h.signalled t = true ∧ h.selfRemoved t = false ∨
        s'.result t ≠ .ok ∧ h.signalled t = false ∧ h.selfRemoved t = true := by
  have hk := hr.reachable.cvKnown
  have hf := hr.fits
  obtain ⟨loc, hg⟩ := hr.reachable.good_of_regular
  refine ⟨fun c hfree => ?_, ?_, fun t ht => (hf.pend t).eq_nil ht, hf.order, ?_, ?_⟩
  · rw [and_cvSpinlock] at hfree
    rw [ne_eq, and_cvNonEmpty, Bool.not_eq_false]
    exact hk.tells c hfree
  · intro t l ch s' hpc hne hstep
    simp only [Mu.step, hpc, cvSignal, Option.some.injEq] at hstep
    have hbit : (s.cv l.pcv).word &&& cvNonEmpty ≠ 0#32 := by
      rw [ne_eq, and_cvNonEmpty, Bool.not_eq_false]
      exact hk.set l.pcv hne
    rw [if_pos hbit] at hstep
    subst hstep
    exact State.setPc_self ..
  · intro x m hop hrole
    obtain ⟨l, hl⟩ := Pc.cvLocals_of_released hop hrole
    refine ⟨l, hl, ?_⟩
    by_cases hout : l.outcome = .ok
    · by_cases hin : x ∈ (s.cv l.pcv).waiters
      · exact Or.inl hin
      · exact Or.inr (Or.inl (((hf.wait x).ok l hl hout).2.mpr hin))
    · cases hm : (s.pc x).cvMine with
      | false => exact Or.inr (Or.inr ((hf.wait x).late l hl hout hm).1)
      | true =>
          obtain ⟨l', hl', hloc, -⟩ := hg.loc_of_mine hm
          rw [hl, Option.some.injEq] at hl'
          subst hl'
          exact Or.inl (((hg.lists.cvQ _).mem x).mpr hloc)
  · intro t a s' m held hP hstep hop hret
    obtain ⟨hcv, l, hl, hres, hm⟩ := step_cvWait_returns (hg.pcs t).ok hstep hop hret
    by_cases hout : l.outcome = .ok
    · -- the thread is out of the call, so its waiter is on no queue
      obtain ⟨_, loc', -, hg', -⟩ := hr.reachable.step_of_regular hP hstep
      have hnone : loc' t = .none := by
        have hcompat : Compat (loc' t) (s'.wtr t).core (s'.pc t).phase := hg'.inv.place.compat t
        rw [hret] at hcompat
        exact hcompat
      have hnot : t ∉ (s.cv l.pcv).waiters := by
        rw [← hcv, (hg'.lists.cvQ _).mem, hnone]
        rintro ⟨⟩
      obtain ⟨hself, hsig⟩ := (hf.wait t).ok l hl hout
      exact Or.inl ⟨hres.trans hout, hsig.mpr hnot, hself⟩
    · obtain ⟨hself, hsig⟩ := (hf.wait t).late l hl hout hm
      exact Or.inr ⟨fun hok => hout (hres.symm.trans hok), hsig, hself⟩

/-- A wait that a broadcast has ended is about to return. -/
def broadcastRun : List (Fin 2 × Act Bool) :=
  [(0, .call (.lock .writer))] ++ goOn 0 1 ++ [(0, .call (.cvWait 1 false))] ++ goOn 0 8 ++
  [(1, .call (.signal 1 true))] ++ goOn 1 11 ++ goOn 0 3

theorem cv_wakeups_broadcastRun : ∃ (s s' : State (Fin 2) Bool) (h : CvHistory (Fin 2)),
    CvRecorded flagEnv false (s, h) ∧ step flagEnv 0 (.step .run) s = some s' ∧
      s'.pc 0 = .client (some .writer) ∧ s'.result 0 = .ok ∧ h.signalled 0 = true := by
  obtain ⟨s, hs, hf⟩ := Reachable.exists_of_exec (E := flagEnv) (P := Regular) (x := false)
    broadcastRun (fun s => match step flagEnv 0 (.step .run) s with
      | some s' => decide (Regular 0 (.step .run : Act Bool) s) &&
          decide ((s.pc 0).op = .cvWait .writer) && decide (s'.pc 0 = .client (some .writer)) &&
          decide (s'.result 0 = .ok)
      | none => false) (by decide +kernel)
  obtain ⟨h, hh⟩ := Reach.exists_history (fun i s s' h => h.next i.1 i.2 s s') CvHistory.empty hs
  split at hf
  · next s' hstep =>
      simp only [Bool.and_eq_true, decide_eq_true_eq] at hf
      obtain ⟨⟨⟨hP, hop⟩, hret⟩, hok⟩ := hf
      refine ⟨s, s', h, hh, hstep, hret, hok, ?_⟩
      rcases (cv_wakeups hh).2.2.2.2.2 0 _ s' _ _ hP hstep hop hret with hsig | hself
      · exact hsig.2.1
      · exact (hself.1 hok).elim
  · cases hf

end

end Nsync.Mu
