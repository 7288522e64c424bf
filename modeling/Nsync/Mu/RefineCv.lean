import Nsync.Mu.RefineWait

/-!
# Waiting on a condition variable refines the protocol

`nsync_cv_wait_with_deadline_generic`, and the spinlock of a condition variable.
-/

namespace Nsync.Mu

open Nsync.Lib

variable {T σ : Type} [DecidableEq T]

/-! ## Words of condition variables -/

@[simp] theorem and_cvSpinlock (w : Word) : w &&& cvSpinlock = 0#32 ↔ CvFree w :=
  and_twoPow_eq_zero w (by omega)

theorem spinWord_cvSpinlock (old : Word) : spinWord cvSpinlock 0#32 old = old ||| cvSpinlock := by
  rw [spinWord, BitVec.not_zero, BitVec.and_allOnes]

theorem getLsbD_or_cvSpinlock (old : Word) : (old ||| cvSpinlock).getLsbD 0 = true := by
  simp [cvSpinlock]

theorem getLsbD_enqueue (old : Word) :
    (spinWord (cvSpinlock ||| cvNonEmpty) 0#32 old).getLsbD 0 = true := by
  simp [spinWord, cvSpinlock]

theorem CvFree.or_cvNonEmpty {w : Word} (h : CvFree w) : CvFree (w ||| cvNonEmpty) := by
  have : cvNonEmpty.getLsbD 0 = false := by decide
  simp only [CvFree, BitVec.getLsbD_or, this, Bool.or_false]
  exact h

theorem CvFree.andNot {w : Word} (h : CvFree w) (m : Word) : CvFree (w &&& ~~~m) := by
  simp only [CvFree, BitVec.getLsbD_and, show w.getLsbD 0 = false from h, Bool.false_and]

theorem CvFree.zero : CvFree 0#32 := rfl

variable [Fintype T] {E : Env σ} {C : WaitCondition → Prop} {s : State T σ} {loc : T → Loc T}
  {t : T} {c : Addr}

omit [DecidableEq T] [Fintype T] in
theorem State.cvw_setCv (s : State T σ) (c : Addr) (q : Cv T) :
    (fun d => ((s.setCv c q).cv d).word) = Function.update (fun d => (s.cv d).word) c q.word := by
  funext d
  by_cases hd : d = c
  · subst hd
    simp [State.setCv]
  · simp [State.setCv, hd]

omit [DecidableEq T] [Fintype T] in
theorem State.waiters_setCv (s : State T σ) (c : Addr) (w : Word) (d : Addr) :
    ((s.setCv c { s.cv c with word := w }).cv d).waiters = (s.cv d).waiters := by
  by_cases hd : d = c
  · subst hd
    simp [State.setCv]
  · simp [State.setCv, hd]

/-- A CAS that takes the spinlock of a condition variable. -/
theorem Good.cvTake (h : Good E C s loc) {p q : Pc T} {w : Word} {r : CvRole} (hpc : s.pc t = q)
    (hlists : p.lists = q.lists) (hcv : q.cvRole = .no) (hfree : CvFree (s.cv c).word)
    (hw : w = spinWord cvSpinlock 0#32 (s.cv c).word)
    (hr : r = .held c ∨ r = .dbg c (s.cv c).word) (habs : p.abs = { q.abs with cv := r })
    (hok : PcOk E C ((s.setCv c { s.cv c with word := w }).setPc t p) t) :
    Simulates E C t s loc ((s.setCv c { s.cv c with word := w }).setPc t p) := by
  subst hpc
  rw [spinWord_cvSpinlock] at hw
  have hstep := AStep.cvTake (E := E) (C := C) (t := t) (a := s.abs loc) c r w hcv hfree
    (hw ▸ getLsbD_or_cvSpinlock _) (hr.imp id fun hr => ⟨hr, hw⟩)
  exact h.simple loc (p := p) rfl hlists rfl (State.waiters_setCv s c w) rfl (fun _ => Or.inl rfl)
    (hstep.of_eq (AState.ext rfl (State.abs_th rfl habs) rfl rfl rfl (State.cvw_setCv s c _) rfl rfl))
    hok

/-- A store that releases the spinlock of a condition variable. -/
theorem Good.cvRelease (h : Good E C s loc) {p q : Pc T} {w : Word} (hpc : s.pc t = q)
    (hlists : p.lists = q.lists) (hcv : q.cvRole.addr = some c) (hw : CvFree w)
    (hord : q.phase.ordinary = true) (habs : p.abs = { q.abs with cv := .no })
    (hok : PcOk E C ((s.setCv c { s.cv c with word := w }).setPc t p) t) :
    Simulates E C t s loc ((s.setCv c { s.cv c with word := w }).setPc t p) := by
  subst hpc
  have hphase : ∀ d, ((s.abs loc).th t).phase ≠ .cvNew d ∧ ((s.abs loc).th t).phase ≠ .cvMine d := by
    intro d
    constructor <;> intro hp <;> rw [show (s.pc t).phase = _ from hp] at hord <;> cases hord
  have hstep := AStep.cvRelease (E := E) (C := C) (t := t) (a := s.abs loc) c w hcv hw hphase
  exact h.simple loc (p := p) rfl hlists rfl (State.waiters_setCv s c w) rfl (fun _ => Or.inl rfl)
    (hstep.of_eq (AState.ext rfl (State.abs_th rfl habs) rfl rfl rfl (State.cvw_setCv s c _) rfl rfl))
    hok

/-! ## The wait -/

variable {l : CvWait}

/-- The waiter joins the queue of the condition variable. -/
theorem Good.cvEnqueue (h : Good E C s loc) {old : Word}
    (hpc : s.pc t = .cvWait l (.enqueue (.cas old))) (hword : (s.cv l.pcv).word = old) :
    Simulates E C t s loc ((s.setCv l.pcv
      ⟨spinWord (cvSpinlock ||| cvNonEmpty) 0#32 old, (s.cv l.pcv).waiters ++ [t]⟩).setPc t
        (.cvWait l (.loadRemoveCount old))) := by
  subst hword
  obtain ⟨he, hout, harmed, hfree⟩ :
      Pc.Ok C (s.wtr t) (.cvWait l (.enqueue (.cas (s.cv l.pcv).word))) := hpc ▸ (h.pcs t).ok
  have hcompat : Compat (loc t) (s.wtr t).core (s.pc t).phase := h.inv.place.compat t
  rw [hpc] at hcompat
  have hloc : loc t = .none := hcompat.1
  have hlists : ∀ u, ((Function.update s.pc t
      (.cvWait l (.loadRemoveCount (s.cv l.pcv).word))) u).lists = (s.pc u).lists :=
    Pc.lists_set (by rw [hpc]; rfl)
  have hstep := AStep.cvEnqueue (E := E) (C := C) (t := t) (a := s.abs loc) l.pcv
    (spinWord (cvSpinlock ||| cvNonEmpty) 0#32 (s.cv l.pcv).word)
    (by simp [State.abs, Pc.abs, hpc, Pc.phase]) (by simp [State.abs, Pc.abs, hpc, Pc.cvRole]) hfree
    (getLsbD_enqueue _)
  refine h.next (Function.update loc t (.cvQ l.pcv))
    (hstep.of_eq (AState.ext rfl (State.abs_th (s := s) rfl ?_) rfl rfl rfl (State.cvw_setCv s _ _)
      rfl rfl))
    (fun u hu => by simp [State.setPc, State.setCv, hu]) ?_
    (PcOk.of_ok (State.setPc_self _ t _) ⟨he, hout, harmed, hfree⟩ rfl rfl)
    (h.rings.congr (fun u => (Pc.lists_eq (hlists u)).1) (fun u => (Pc.lists_eq (hlists u)).2.1) rfl
      rfl fun _ _ => rfl)
  · simp only [State.abs, hpc]
    rfl
  · refine h.lists.of_cvStep (t := t) l.pcv (fun u => (Pc.lists_eq (hlists u)).2.2.2.2)
      (fun u => (Pc.lists_eq (hlists u)).2.2.1) rfl (fun d hd => by simp [State.setPc, State.setCv, hd])
      ?_ (fun u _ => (Pc.lists_eq (hlists u)).2.2.2.1) ?_ ?_
    · simpa [State.setPc, State.setCv] using (h.lists.cvQ l.pcv).snoc (x := t) (by simp [hloc])
    · have htw := h.lists.toWake t
      rw [hpc] at htw
      rw [State.setPc_self]
      exact htw.other (by simp [hloc]) (by simp)
    · intro x k h1 _ h3
      by_cases hx : x = t
      · subst hx
        have : Loc.none ≠ k := by
          rintro rfl
          exact h3 (Or.inl rfl)
        simp [hloc, Ne.symm h1, this]
      · simp [hx]

/-- After a timeout the check of `remove_count` finds out whether the waiter is
still on the queue of the condition variable. -/
theorem Good.cvCheckCount (h : Good E C s loc) {old : Word}
    (hpc : s.pc t = .cvWait l (.checkCount old)) (hrc : l.removeCount = (s.wtr t).removeCount) :
    Simulates E C t s loc
      (s.setPc t (.cvWait { l with outcome := l.semOutcome } (.remove old .load))) := by
  obtain ⟨he, hout, hsem, harmed, hfree⟩ : Pc.Ok C (s.wtr t) (.cvWait l (.checkCount old)) :=
    hpc ▸ (h.pcs t).ok
  have hcompat : Compat (loc t) (s.wtr t).core (s.pc t).phase := h.inv.place.compat t
  rw [hpc] at hcompat
  have hne : l.removeCount ≠ l.removeCount + 1#32 := by bv_omega
  have hne' : l.removeCount ≠ l.removeCount + 1#32 + 1#32 := by bv_omega
  have hmine : loc t = .cvQ l.pcv ∧ (s.wtr t).waiting = true ∧ (s.wtr t).cvMu = true := by
    rcases hcompat with ⟨hq, hw, hm, -⟩ | ⟨-, -, -, hr⟩ | ⟨-, -, -, hr⟩ | ⟨-, -, -, hr⟩ |
      ⟨-, -, -, hr⟩ | ⟨-, -, -, hr⟩
    · exact ⟨hq, hw, hm⟩
    · exact (hne (hrc.trans hr)).elim
    · exact (hne (hrc.trans hr)).elim
    · exact (hne (hrc.trans hr)).elim
    · exact (hne' (hrc.trans hr)).elim
    · exact (hne' (hrc.trans hr)).elim
  refine h.ownGoto hpc ⟨rfl, rfl, rfl, rfl, rfl, id, id, nofun, nofun, nofun, ?_, rfl, rfl⟩ hmine
    ⟨he, hsem, harmed, hfree⟩
  rintro c (hc | hc) <;> cases hc
  rfl

/-- The waiter takes itself off the queue of the condition variable. -/
theorem Good.cvRemove (h : Good E C s loc) {old rc old' : Word}
    (hpc : s.pc t = .cvWait l (.remove old (.cas rc))) (hfree' : CvFree old → CvFree old') :
    Simulates E C t s loc
      (((s.setCv l.pcv { s.cv l.pcv with waiters := (s.cv l.pcv).waiters.erase t }).setWtr t
        Waiter.removed).setPc t (.cvWait l (.clearWaiting old'))) := by
  obtain ⟨he, hout, harmed, hfree⟩ : Pc.Ok C (s.wtr t) (.cvWait l (.remove old (.cas rc))) :=
    hpc ▸ (h.pcs t).ok
  have hcompat : Compat (loc t) (s.wtr t).core (s.pc t).phase := h.inv.place.compat t
  rw [hpc] at hcompat
  have hloc : loc t = .cvQ l.pcv := hcompat.1
  have hlists : ∀ u, ((Function.update s.pc t (.cvWait l (.clearWaiting old'))) u).lists =
      (s.pc u).lists := Pc.lists_set (by rw [hpc]; rfl)
  have hstep := AStep.cvRemove (E := E) (C := C) (t := t) (a := s.abs loc) l.pcv
    (by simp [State.abs, Pc.abs, hpc, Pc.phase])
  refine h.next (Function.update loc t .none)
    (hstep.of_eq (AState.ext rfl (State.abs_th (s := s) rfl ?_) rfl ?_ rfl ?_ rfl rfl))
    (fun u hu => by simp [State.setPc, State.setCv, State.setWtr, hu]) ?_
    (PcOk.of_ok (State.setPc_self _ t _)
      (Pc.Ok.congr (w := s.wtr t) ⟨he, hout, harmed, hfree' hfree⟩ ?_ ?_) rfl rfl)
    (h.rings.congr (fun u => (Pc.lists_eq (hlists u)).1) (fun u => (Pc.lists_eq (hlists u)).2.1) rfl
      rfl fun x _ => ?_)
  · simp only [State.abs, hpc]
    rfl
  · funext y
    by_cases hy : y = t
    · subst hy
      simp [State.abs, State.setPc, State.setCv, State.setWtr, Waiter.core, Waiter.removed]
    · simp [State.abs, State.setPc, State.setCv, State.setWtr, hy]
  · refine (State.cvw_setCv s l.pcv _).trans ?_
    exact Function.update_eq_self l.pcv _
  · refine h.lists.of_cvStep (t := t) l.pcv (fun u => (Pc.lists_eq (hlists u)).2.2.2.2)
      (fun u => (Pc.lists_eq (hlists u)).2.2.1) rfl
      (fun d hd => by simp [State.setPc, State.setCv, State.setWtr, hd])
      ?_ (fun u _ => (Pc.lists_eq (hlists u)).2.2.2.1) ?_ ?_
    · have hq : Listed (Function.update loc t .none) ((s.cv l.pcv).waiters.erase t) (.cvQ l.pcv) :=
        (h.lists.cvQ l.pcv).erase (by simp)
      simpa [State.setPc, State.setCv, State.setWtr] using hq
    · have htw := h.lists.toWake t
      rw [hpc] at htw
      rw [State.setPc_self]
      exact htw.other (by simp [hloc]) (by simp)
    · intro x k h1 _ h3
      by_cases hx : x = t
      · subst hx
        have : Loc.none ≠ k := by
          rintro rfl
          exact h3 (Or.inl rfl)
        simp [hloc, Ne.symm h1, this]
      · simp [hx]
  · simp [State.setPc, State.setCv, State.setWtr, Waiter.removed]
  · simp [State.setPc, State.setCv, State.setWtr, Waiter.removed]
  · by_cases hx : x = t
    · subst hx
      simp [State.setPc, State.setCv, State.setWtr, Waiter.removed]
    · simp [State.setPc, State.setCv, State.setWtr, hx]

/-- A waiter that was moved to the queue of the mutex and woken from there goes
on in `nsync_mu_lock_slow_`. -/
theorem Good.cvRelock (h : Good E C s loc) (hpc : s.pc t = .cvWait l .waitLoad)
    (hwait : (s.wtr t).waiting = false) (hmu : (s.wtr t).cvMu = false) :
    Simulates E C t s loc (Nsync.Mu.startLockSlow s t (s.wtr t).lType true (.cvWait l)) := by
  obtain ⟨he, hm, hc⟩ : Pc.Ok C (s.wtr t) (.cvWait l .waitLoad) := hpc ▸ (h.pcs t).ok
  have hcompat : Compat (loc t) (s.wtr t).core (s.pc t).phase := h.inv.place.compat t
  rw [hpc] at hcompat
  have hloc : loc t = .woken := by
    by_cases hout : l.outcome = .ok
    · simp only [Pc.phase, hout] at hcompat
      rcases hcompat with ⟨-, hw, -⟩ | ⟨-, hw, -⟩ | ⟨-, -, hw, -⟩ | ⟨-, hw, -⟩ | ⟨-, hw, -⟩ | ⟨hl, -⟩
      · exact Bool.noConfusion (hwait.symm.trans hw)
      · exact Bool.noConfusion (hwait.symm.trans hw)
      · exact Bool.noConfusion (hmu.symm.trans hw)
      · exact Bool.noConfusion (hwait.symm.trans hw)
      · exact Bool.noConfusion (hwait.symm.trans hw)
      · exact hl
    · simp only [Pc.phase, hout] at hcompat
      exact Bool.noConfusion (hmu.symm.trans hcompat.2.2)
  exact h.own (p := .lockSlow ⟨(s.wtr t).lType, true, 0, false⟩ (.cvWait l) .top) hpc
    (Pc.sameRoles rfl rfl id id (by rintro ⟨⟩) (by rintro ⟨⟩) rfl rfl rfl) hloc
    (Or.inl (Or.inr hloc)) (Or.inr rfl) (by rintro _ ⟨⟩) ⟨he.trans hm.symm, rfl, rfl, (by rintro ⟨⟩), trivial⟩

/-- A waiter that was woken, or gave up, goes on in `nsync_mu_lock` or
`nsync_mu_rlock`. -/
theorem Good.cvLock (h : Good E C s loc) (hpc : s.pc t = .cvWait l .waitLoad)
    (hwait : (s.wtr t).waiting = false) (hmu : (s.wtr t).cvMu = true) :
    Simulates E C t s loc (s.setPc t (.lock l.lType false (.cvWait l) .cas0)) := by
  obtain ⟨he, hm, hc⟩ : Pc.Ok C (s.wtr t) (.cvWait l .waitLoad) := hpc ▸ (h.pcs t).ok
  have hcompat : Compat (loc t) (s.wtr t).core (s.pc t).phase := h.inv.place.compat t
  rw [hpc] at hcompat
  have hloc : loc t = .none := by
    by_cases hout : l.outcome = .ok
    · simp only [Pc.phase, hout] at hcompat
      rcases hcompat with ⟨-, hw, -⟩ | ⟨-, hw, -⟩ | ⟨hl, -⟩ | ⟨-, hw, -⟩ | ⟨-, hw, -⟩ | ⟨-, -, hw, -⟩
      · exact Bool.noConfusion (hwait.symm.trans hw)
      · exact Bool.noConfusion (hwait.symm.trans hw)
      · exact hl
      · exact Bool.noConfusion (hwait.symm.trans hw)
      · exact Bool.noConfusion (hwait.symm.trans hw)
      · exact Bool.noConfusion (hmu.symm.trans hw)
    · simp only [Pc.phase, hout] at hcompat
      exact hcompat.1
  exact h.ownGoto hpc (Pc.sameRoles rfl rfl id id (by rintro ⟨⟩) (by rintro ⟨⟩) rfl rfl rfl) hloc
    ⟨he, (by rintro ⟨⟩), trivial⟩

/-- The wait reads off the mutex word in which mode the caller holds it. -/
theorem Good.cvMode (h : Good E C s loc) (hpc : s.pc t = .cvWait l .loadMuWord) {m : Mode}
    (hm : m = l.entry) :
    Simulates E C t s loc ((s.setWtr t fun w => { w with lType := m }).setPc t
      (.cvWait { l with lType := m } (.enqueue .load))) := by
  obtain ⟨he, hout, hc⟩ : Pc.Ok C (s.wtr t) (.cvWait l .loadMuWord) := hpc ▸ (h.pcs t).ok
  have hcompat : Compat (loc t) (s.wtr t).core (s.pc t).phase := h.inv.place.compat t
  rw [hpc] at hcompat
  refine h.own hpc (Pc.sameRoles rfl ?_ id id nofun nofun rfl rfl rfl) hcompat (Or.inr rfl)
    (Or.inl hcompat.1) (h.inv.place.conds t) ⟨hm.symm, hout, rfl, hc⟩
  simp only [Pc.lockRole, hm]
  rfl

theorem cvWaitWithDeadline_simulates (h : Good E C s loc) {ch : Choice} {p : CvWaitPc}
    (hpc : s.pc t = .cvWait l p) {s' : State T σ}
    (hs : cvWaitWithDeadline s t l ch p = some s') : Simulates E C t s loc s' := by
  have hok := (h.pcs t).ok
  have hcompat : Compat (loc t) (s.wtr t).core (s.pc t).phase := h.inv.place.compat t
  rw [hpc] at hok hcompat
  obtain ⟨he, hp⟩ := hok
  cases p with
  | storeWaiting =>
      cases hs
      have hloc : loc t = .none := hcompat
      exact h.own hpc (Pc.sameRoles rfl rfl id id (by rintro ⟨⟩) (by rintro ⟨⟩) rfl rfl rfl) ⟨hloc, rfl, rfl⟩
        (Or.inl (Or.inl hloc)) (Or.inl hloc) (by rintro _ ⟨⟩) ⟨he, hp, rfl⟩
  | loadMuWord =>
      have hlock : ((s.abs loc).th t).lock = some l.entry := by
        simp only [State.abs, hpc]
        rfl
      have hshare := h.inv.lock.shares.hasShare hlock
      have hex := h.inv.lock.shares.excl
      simp only [cvWaitWithDeadline, ne_eq, and_muWheldIfNonZero, and_muRheldIfNonZero] at hs
      split at hs
      · next hw =>
          rw [Bool.not_eq_false] at hw
          split at hs
          · next hr => exact (hr (hex hw)).elim
          · cases hs
            refine h.cvMode hpc ?_
            cases hl : l.entry with
            | writer => rfl
            | reader =>
                rw [hl] at hlock
                exact Bool.noConfusion (hw.symm.trans (h.inv.lock.shares.reader_wlock hlock))
      · next hw =>
          rw [Bool.not_eq_false, Bool.not_eq_true] at hw
          split at hs
          · cases hs
            refine h.cvMode hpc ?_
            cases hl : l.entry with
            | reader => rfl
            | writer =>
                rw [hl] at hshare
                exact Bool.noConfusion (hw.symm.trans hshare)
          · next hr => exact (hr (hshare.not_free hw)).elim
  | enqueue lc =>
      cases lc with
      | load =>
          simp only [cvWaitWithDeadline] at hs
          split at hs
          · next hz =>
              cases hs
              exact h.goto hpc rfl rfl ⟨he, hp.1, hp.2, (and_cvSpinlock _).mp hz⟩ rfl rfl
          · cases hs
            exact h.goto hpc rfl rfl ⟨he, hp⟩ rfl rfl
      | cas old =>
          simp only [cvWaitWithDeadline] at hs
          split at hs
          · next hword =>
              cases hs
              exact h.cvEnqueue hpc hword
          · cases hs
            exact h.goto hpc rfl rfl ⟨he, hp.1, hp.2.1⟩ rfl rfl
  | loadRemoveCount old =>
      cases hs
      exact h.ownGoto hpc (Pc.sameRoles rfl rfl id id (by rintro ⟨⟩) (by rintro ⟨⟩) rfl rfl rfl)
        (Or.inl ⟨hcompat.1, hcompat.2.1, hcompat.2.2, rfl⟩) ⟨he, hp⟩
  | storeWord old =>
      cases hs
      obtain ⟨hout, ⟨hm, hc⟩, hfree⟩ := hp
      have hmode : (if l.lType = .reader then UnlockKind.runlock else .unlock).mode = l.lType := by
        cases l.lType <;> rfl
      refine h.cvRelease hpc rfl rfl hfree.or_cvNonEmpty rfl ?_
        (PcOk.of_ok (State.setPc_self _ t _) ⟨?_, trivial⟩ rfl rfl)
      · simp only [Pc.abs, Pc.lockRole, hmode]
        rfl
      · rw [hmode]
        exact ⟨he, rfl, hout, hm, hc⟩
  | waitLoad =>
      simp only [cvWaitWithDeadline] at hs
      split at hs
      · next hwait =>
          have hout : l.outcome = .ok := by
            by_contra hout
            simp only [Pc.phase, hout] at hcompat
            exact Bool.noConfusion (hwait.symm.trans hcompat.2.1)
          have habs : ∀ q : CvWaitPc, (q = .sem ∨ q = .recheck) →
              (Pc.cvWait l q : Pc T).abs = (Pc.cvWait l .waitLoad).abs := by
            rintro q (rfl | rfl) <;> simp only [Pc.abs, Pc.phase, hout] <;> rfl
          split at hs
          · cases hs
            exact h.goto hpc rfl (habs _ (Or.inl rfl)) ⟨he, hout, hp⟩ rfl rfl
          · next hsem =>
              cases hs
              exact h.goto hpc rfl (habs _ (Or.inr rfl)) ⟨he, hout, hsem, hp⟩ rfl rfl
      · next hwait =>
          rw [Bool.not_eq_true] at hwait
          split at hs
          · next hmu =>
              cases hs
              exact h.cvRelock hpc hwait hmu
          · next hmu =>
              cases hs
              exact h.cvLock hpc hwait (by simpa using hmu)
  | sem =>
      obtain ⟨hout, harmed⟩ := hp
      simp only [cvWaitWithDeadline] at hs
      refine h.semWaitWithCancel hpc (fun o => ?_) hs
      by_cases ho : o = .ok
      · rw [if_pos ho]
        refine ⟨rfl, ?_, ⟨he, harmed⟩, rfl, rfl⟩
        simp only [Pc.abs, Pc.phase, hout]
        rfl
      · rw [if_neg ho]
        exact ⟨rfl, rfl, ⟨he, hout, ho, harmed⟩, rfl, rfl⟩
  | recheck =>
      obtain ⟨hout, hsem, harmed⟩ := hp
      simp only [cvWaitWithDeadline] at hs
      split at hs
      · cases hs
        exact h.goto hpc rfl rfl ⟨he, hout, hsem, harmed⟩ rfl rfl
      · cases hs
        refine h.goto hpc rfl ?_ ⟨he, harmed⟩ rfl rfl
        simp only [Pc.abs, Pc.phase, hout]
        rfl
  | spin lc =>
      cases lc with
      | load =>
          obtain ⟨hout, hsem, harmed⟩ := hp
          simp only [cvWaitWithDeadline] at hs
          split at hs
          · next hz =>
              cases hs
              exact h.goto hpc rfl rfl ⟨he, hout, hsem, harmed, (and_cvSpinlock _).mp hz⟩ rfl rfl
          · cases hs
            exact h.goto hpc rfl rfl ⟨he, hout, hsem, harmed⟩ rfl rfl
      | cas old =>
          obtain ⟨hout, hsem, harmed, hfree⟩ := hp
          simp only [cvWaitWithDeadline] at hs
          split at hs
          · next hword =>
              cases hs
              subst hword
              exact h.cvTake hpc rfl rfl hfree rfl (Or.inl rfl) rfl
                (PcOk.of_ok (State.setPc_self _ t _) ⟨he, hout, hsem, harmed, hfree⟩ rfl rfl)
          · cases hs
            exact h.goto hpc rfl rfl ⟨he, hout, hsem, harmed⟩ rfl rfl
  | checkWaiting old =>
      obtain ⟨hout, hsem, harmed, hfree⟩ := hp
      simp only [cvWaitWithDeadline] at hs
      split at hs
      · cases hs
        exact h.goto hpc rfl rfl ⟨he, hout, hsem, harmed, hfree⟩ rfl rfl
      · cases hs
        refine h.goto hpc rfl ?_ ⟨he, harmed, hfree⟩ rfl rfl
        simp only [Pc.abs, Pc.phase, hout]
        rfl
  | checkCount old =>
      obtain ⟨hout, hsem, harmed, hfree⟩ := hp
      simp only [cvWaitWithDeadline] at hs
      split at hs
      · next hrc =>
          cases hs
          exact h.cvCheckCount hpc hrc
      · cases hs
        refine h.goto hpc rfl ?_ ⟨he, harmed, hfree⟩ rfl rfl
        simp only [Pc.abs, Pc.phase, hout]
        rfl
  | remove old lc =>
      cases lc with
      | load =>
          cases hs
          exact h.goto hpc rfl rfl ⟨he, hp⟩ rfl rfl
      | cas rc =>
          simp only [cvWaitWithDeadline] at hs
          split at hs
          · cases hs
            refine h.cvRemove hpc fun hfree => ?_
            split
            · exact hfree.andNot _
            · exact hfree
          · cases hs
            exact h.goto hpc rfl rfl ⟨he, hp⟩ rfl rfl
  | clearWaiting old =>
      obtain ⟨hout, harmed, hfree⟩ := hp
      cases hs
      have hloc : loc t = .none := hcompat.1
      refine h.own hpc (Pc.sameRoles rfl rfl id id (by rintro ⟨⟩) (by rintro ⟨⟩) ?_ rfl rfl) ?_
        (Or.inr rfl) (Or.inl hloc) (h.inv.place.conds t) ⟨he, harmed, hfree⟩
      · simp only [Pc.phase, hout]
        rfl
      · simp only [Pc.phase, hout]
        exact ⟨hloc, rfl, hcompat.2.2⟩
  | releaseWord old =>
      cases hs
      refine h.cvRelease hpc rfl rfl hp.2 ?_ rfl
        (PcOk.of_ok (State.setPc_self _ t _) ⟨he, hp.1⟩ rfl rfl)
      simp only [Pc.phase]
      split <;> rfl
  | delay =>
      cases hs
      exact h.goto hpc rfl rfl ⟨he, hp⟩ rfl rfl

end Nsync.Mu
