import Nsync.Mu.Refine

/-!
# Acquiring refines the protocol

`nsync_mu_lock`, `nsync_mu_trylock`, their reader versions and
`nsync_mu_lock_slow_`.
-/

namespace Nsync.Mu

open Nsync.Lib

variable {T σ : Type} [DecidableEq T] [Fintype T] {E : Env σ} {C : WaitCondition → Prop}
  {s : State T σ} {loc : T → Loc T} {t : T}

/-- Where a thread goes on after it has acquired. -/
def LockCont.pc (m : Mode) : LockCont → Pc T
  | .ret => .client (some m)
  | .muWait l => .muWait l .evalCondition
  | .cvWait _ => .client (some m)

omit [Fintype T] in
theorem afterLock_eq (s : State T σ) (t : T) (m : Mode) (k : LockCont) :
    ∃ r, afterLock s t m k = { s.setPc t (k.pc m) with result := r } := by
  cases k with
  | ret => exact ⟨s.result, rfl⟩
  | muWait l => exact ⟨s.result, rfl⟩
  | cvWait l => exact ⟨_, rfl⟩

/-- A program counter that plays no role in the protocol but waits for the
mutex. -/
structure Pc.Seeking (p : Pc T) : Prop where
  lock : p.lockRole = none
  spin : p.spinRole = .no
  region : p.region = false
  trying : p.trying = false
  cv : p.cvRole = .no
  lists : p.lists = ([], [], [], [])

omit [DecidableEq T] [Fintype T] in
theorem LockCont.abs_pc {m : Mode} {k : LockCont} (hk : k.Ok C m) :
    (k.pc m : Pc T).abs = ⟨some m, .no, .idle, false, false, false, .no⟩ := by
  cases k with
  | ret => rfl
  | cvWait l => rfl
  | muWait l =>
      obtain ⟨-, rfl, -⟩ := hk
      rfl

/-- An acquiring CAS. -/
theorem Good.acquire (h : Good E C s loc) {m : Mode} (clear : Bool) {k : LockCont} {w' : Word}
    (hp : (s.pc t).Seeking) (hph : (s.pc t).phase = if clear then .redo else .idle)
    (hv : (view s.word).CanAcquire m clear)
    (hw : view w' = (view s.word).acquire m clear (s.pc t).longWaiter)
    (htype : clear = true → (s.wtr t).lType = m) (hk : k.Ok C m) :
    Simulates E C t s loc (afterLock ((s.setWord w').acquired t m) t m k) := by
  have hstep := AStep.acquire (E := E) (C := C) (t := t) (a := s.abs loc) m clear hp.lock hp.spin
    hph hv htype
  obtain ⟨r, hr⟩ := afterLock_eq ((s.setWord w').acquired t m) t m k
  rw [hr]
  have hloc : (loc t).Free := by
    have hc := h.inv.place.compat t
    change Compat (loc t) _ (s.pc t).phase at hc
    rw [hph] at hc
    cases clear
    · exact Or.inl hc
    · exact Or.inr hc
  refine h.simple (Function.update loc t .none) rfl ?_ rfl (fun _ => rfl) rfl ?_
    (hstep.of_eq (AState.ext hw ?_ rfl rfl rfl rfl rfl rfl))
    (PcOk.of_ok (p := k.pc m) (by simp [State.setPc]) ?_ (by cases k <;> rfl) (by cases k <;> rfl))
  · rw [hp.lists]
    cases k <;> rfl
  · intro x
    by_cases hx : x = t
    · subst hx
      exact Or.inr ⟨hloc, by simp [Loc.Free]⟩
    · simp [hx]
  · refine State.abs_th (p := k.pc m) rfl ((LockCont.abs_pc hk).trans ?_)
    ext1 <;> simp [State.abs, Pc.abs, hp.spin, hp.region, hp.trying, hp.cv]
  · cases k with
    | muWait l => exact ⟨hk.1.trans hk.2.1.symm, hk.2.2, trivial⟩
    | _ => trivial

/-- Entry of `nsync_mu_lock_slow_` from a fast path. -/
theorem Good.startLockSlow (h : Good E C s loc) {m : Mode} {try_ : Bool} {k : LockCont}
    {p : LockPc} (hpc : s.pc t = .lock m try_ k p) (hk : k.Ok C m) :
    Simulates E C t s loc (startLockSlow s t m false k) := by
  have hloc : loc t = .none := h.inv.place.loc_of_idle (u := t) (by
    change (s.pc t).phase = .idle
    rw [hpc]
    rfl)
  exact h.own (p := .lockSlow ⟨m, false, 0, false⟩ k .top) hpc
    (Pc.sameRoles rfl rfl id id nofun nofun rfl rfl rfl) hloc (Or.inl (Or.inl hloc))
    (Or.inl hloc) (by simp) ⟨hk, rfl, rfl, by simp, trivial⟩

theorem muLock_simulates (h : Good E C s loc) (hcap : Fits t s) {m : Mode}
    {try_ : Bool} {k : LockCont} {p : LockPc} (hpc : s.pc t = .lock m try_ k p) :
    Simulates E C t s loc (muLock s t m try_ k p) := by
  obtain ⟨hk, htry, hp⟩ : Pc.Ok C (s.wtr t) (.lock m try_ k p) := hpc ▸ (h.pcs t).ok
  have hseek : (s.pc t).Seeking := by
    rw [hpc]
    exact ⟨rfl, rfl, rfl, rfl, rfl, rfl⟩
  have hph : (s.pc t).phase = .idle := by rw [hpc]; rfl
  cases p with
  | cas0 =>
      rw [muLock]
      split
      · next hz =>
          refine h.acquire false hseek hph ?_ ?_ (by simp) hk
          · rw [hz, view_zero]
            cases m <;> simp [View.CanAcquire, View.zero]
          · rw [hz, view_zero, hpc, view_addToAcquire]
            rfl
      · exact h.goto hpc rfl rfl ⟨hk, htry, trivial⟩ rfl rfl
  | load =>
      rw [muLock]
      split
      · next hz => exact h.goto hpc rfl rfl ⟨hk, htry, (and_zeroToAcquire s.word m).mp hz⟩ rfl rfl
      · split
        · exact h.goto hpc rfl rfl trivial rfl rfl
        · exact h.startLockSlow hpc hk
  | cas old =>
      rw [muLock]
      split
      · next hz =>
          subst hz
          have hw : (view s.word).wlock = false := by cases m <;> exact hp.1
          refine h.acquire false hseek hph hp ?_ (by simp) hk
          rw [hpc]
          exact view_acquireWord false false (h.inv.lock.shares.hasRoom (t := t) hcap hseek.lock hw)
      · split
        · exact h.goto hpc rfl rfl trivial rfl rfl
        · exact h.startLockSlow hpc hk

theorem Good.enqueue (h : Good E C s loc) {l : LockSlow} {k : LockCont} {old : Word}
    (hpc : s.pc t = .lockSlow l k (.enqueue old)) (hword : s.word = old) :
    Simulates E C t s loc
      (((s.setWord (enqueueWord l.lType l.clear l.longWait old)).setDequeued t false).setPc t
        (.lockSlow l k .insert)) := by
  subst hword
  obtain ⟨hk, htype, hcond, hlong, hold⟩ := hpc ▸ (h.pcs t).ok
  have hph : ((s.abs loc).th t).phase = if l.clear then .redo else .idle := by
    simp [State.abs, Pc.abs, hpc, Pc.phase]
  have hstep := AStep.enqueue (E := E) (C := C) (t := t) (a := s.abs loc) l.lType l.clear
    (by simp [State.abs, Pc.abs, hpc, Pc.lockRole]) (by simp [State.abs, Pc.abs, hpc, Pc.spinRole])
    hph hold.1 hold.2 htype
  have hloc : (loc t).Free := by
    have hc := h.inv.place.compat t
    rw [hph] at hc
    cases hcl : l.clear <;> rw [hcl] at hc
    · exact Or.inl hc
    · exact Or.inr hc
  refine h.simple (Function.update loc t .none) (p := .lockSlow l k .insert) rfl
    (by rw [hpc]; rfl) rfl (fun _ => rfl) rfl ?_
    (hstep.of_eq (AState.ext ?_ ?_ rfl rfl rfl rfl rfl rfl))
    (PcOk.of_ok (p := .lockSlow l k .insert) (by simp [State.setPc]) ⟨hk, htype, hcond, hlong, trivial⟩
      rfl rfl)
  · intro x
    by_cases hx : x = t
    · subst hx
      exact Or.inr ⟨hloc, by simp [Loc.Free]⟩
    · simp [hx]
  · refine (view_enqueueWord _ _ _ _).trans ?_
    simp [State.abs, Pc.abs, hpc, Pc.longWaiter]
  · refine State.abs_th (p := .lockSlow l k .insert) rfl ?_
    simp only [State.abs, hpc]
    rfl

theorem Good.insert (h : Good E C s loc) {l : LockSlow} {k : LockCont}
    (hpc : s.pc t = .lockSlow l k .insert) {q : List T}
    (hq : q = s.waiters ++ [t] ∨ q = t :: s.waiters) :
    Simulates E C t s loc
      { (s.setWtr t (Waiter.setWaiting true)).setPc t (.lockSlow l k (.release .load)) with
        waiters := q } := by
  obtain ⟨hk, htype, hcond, hlong, -⟩ := hpc ▸ (h.pcs t).ok
  have hloc : loc t = .none := h.inv.place.loc_of_idle (u := t) (by
    simp [State.abs, Pc.abs, hpc, Pc.phase])
  have hstep := AStep.insert (E := E) (C := C) (t := t) (a := s.abs loc)
    (by simp [State.abs, Pc.abs, hpc, Pc.spinRole]) (by simp [State.abs, Pc.abs, hpc, Pc.phase])
    hcond
  have hlists : ∀ u, (((s.setWtr t (Waiter.setWaiting true)).setPc t
      (.lockSlow l k (.release .load))).pc u).lists = (s.pc u).lists :=
    Pc.lists_set (f := s.pc) (by rw [hpc]; rfl)
  have hstep' : AStep E C t (s.abs loc) (State.abs
      { (s.setWtr t (Waiter.setWaiting true)).setPc t (.lockSlow l k (.release .load)) with
        waiters := q } (Function.update loc t .muQ)) := by
    refine hstep.of_eq (AState.ext rfl ?_ rfl ?_ rfl rfl rfl rfl)
    · refine State.abs_th (p := .lockSlow l k (.release .load)) rfl ?_
      simp only [State.abs, hpc]
      rfl
    · funext u
      by_cases hu : u = t
      · subst hu
        simp [State.abs, State.setPc, State.setWtr, Waiter.core, Waiter.setWaiting]
      · simp [State.abs, State.setPc, State.setWtr, hu]
  have halone : s.links.next t = t ∧ s.links.prev t = t :=
    h.alone (by simp [hloc]) (by simp [hloc])
  have hcond' : ∀ x, (x ∈ s.waiters ∨ ∃ u, x ∈ (s.pc u).priv) →
      ((Function.update s.wtr t (Waiter.setWaiting true (s.wtr t))) x).cond = (s.wtr x).cond := by
    intro x hx
    exact (hstep'.wtr_frame (x := x) (h.lists.not_free hx)).1
  refine h.next (Function.update loc t .muQ) hstep' (fun u hu => by simp [State.setPc, State.setWtr, hu])
    (h.lists.joinMu hlists (fun _ => rfl) (Or.inl hloc) hq)
    (PcOk.of_ok (p := .lockSlow l k (.release .load)) (by simp [State.setPc])
      ⟨hk, by simpa [State.setPc, State.setWtr, Waiter.setWaiting] using htype,
        by simpa [State.setPc, State.setWtr, Waiter.setWaiting] using hcond, hlong, trivial⟩ rfl rfl)
    (h.rings.requeue t (k := []) hlists (fun _ _ => ⟨rfl, rfl⟩) (by simp) ?_
      (fun x u hx => hcond' x (Or.inr ⟨u, hx⟩)) ?_)
  · have hmu : Segmented s.links (SameTruth E C
        (Function.update s.wtr t (Waiter.setWaiting true (s.wtr t)))) s.waiters :=
      h.rings.muQ.congr (fun _ _ => rfl) (fun _ _ => rfl) fun x hx y hy hxy =>
        hxy.congr (hcond' x (Or.inl hx)) (hcond' y (Or.inl hy))
    rcases hq with rfl | rfl
    · exact hmu.append (.singleton halone)
    · exact (Segmented.singleton halone).append hmu
  · intro x hx _ hx'
    have hxw : x ∈ s.waiters := by simpa using hx'
    refine (hx ?_).elim
    rcases hq with rfl | rfl <;> simp [hxw]

theorem muLockSlow_simulates (h : Good E C s loc) (hcap : Fits t s)
    {l : LockSlow} {k : LockCont} {p : LockSlowPc} (hpc : s.pc t = .lockSlow l k p)
    {s' : State T σ} (hs : muLockSlow s t l k p = some s') : Simulates E C t s loc s' := by
  have hok := (h.pcs t).ok
  have hcompat : Compat (loc t) (s.wtr t).core (s.pc t).phase := h.inv.place.compat t
  rw [hpc] at hok hcompat
  obtain ⟨hk, htype, hcond, hlong, hp⟩ := hok
  cases p with
  | top =>
      simp only [muLockSlow] at hs
      split at hs
      · next hz =>
          cases hs
          exact h.goto hpc rfl rfl
            ⟨hk, htype, hcond, hlong, (and_zeroToAcquire_clear s.word l.lType l.clear).mp hz⟩ rfl rfl
      · next hz =>
          split at hs
          · next hspin =>
              cases hs
              rw [and_zeroToAcquire_clear] at hz
              exact h.goto hpc rfl rfl
                ⟨hk, htype, hcond, hlong, hz, (and_muSpinlock s.word).mp hspin⟩ rfl rfl
          · cases hs
            exact h.goto hpc rfl rfl ⟨hk, htype, hcond, hlong, trivial⟩ rfl rfl
  | acquire old =>
      simp only [muLockSlow] at hs
      split at hs
      · next hz =>
          cases hs
          subst hz
          have hw : (view s.word).wlock = false := by
            cases hl : l.lType <;> simp only [Pc.lockSlowOk, hl] at hp <;> exact hp.1
          have hseek : (s.pc t).Seeking := by
            rw [hpc]
            exact ⟨rfl, rfl, rfl, rfl, rfl, rfl⟩
          refine h.acquire l.clear hseek (by rw [hpc]; rfl) hp ?_ (fun _ => htype) hk
          rw [hpc]
          exact view_acquireWord l.clear l.longWait
            (h.inv.lock.shares.hasRoom (t := t) hcap hseek.lock hw)
      · cases hs
        exact h.goto hpc rfl rfl ⟨hk, htype, hcond, hlong, trivial⟩ rfl rfl
  | enqueue old =>
      simp only [muLockSlow] at hs
      split at hs
      · next hz =>
          cases hs
          exact h.enqueue hpc hz
      · cases hs
        exact h.goto hpc rfl rfl ⟨hk, htype, hcond, hlong, trivial⟩ rfl rfl
  | insert =>
      simp only [muLockSlow] at hs
      cases hs
      refine h.insert hpc ?_
      split
      · exact Or.inl rfl
      · exact Or.inr rfl
  | release lc =>
      cases lc with
      | load =>
          simp only [muLockSlow] at hs
          cases hs
          exact h.goto hpc rfl rfl ⟨hk, htype, hcond, hlong, trivial⟩ rfl rfl
      | cas old =>
          simp only [muLockSlow] at hs
          split at hs
          · next hz =>
              cases hs
              subst hz
              exact h.releaseSpin (p := .lockSlow l k .waitLoad) hpc rfl (by rintro ⟨⟩) rfl rfl
                (view_releaseSpinlockWord s.word)
                (PcOk.of_ok (p := .lockSlow l k .waitLoad) (by simp [State.setPc])
                  ⟨hk, htype, hcond, hlong, trivial⟩ rfl rfl)
          · cases hs
            exact h.goto hpc rfl rfl ⟨hk, htype, hcond, hlong, trivial⟩ rfl rfl
  | waitLoad =>
      simp only [muLockSlow] at hs
      split at hs
      · cases hs
        exact h.goto hpc rfl rfl ⟨hk, htype, hcond, hlong, trivial⟩ rfl rfl
      · next hwait =>
          cases hs
          have hloc : loc t = .woken := by
            rcases hcompat with ⟨-, hw⟩ | ⟨hl, -⟩
            · exact (hwait hw).elim
            · exact hl
          refine h.ownGoto hpc (Pc.sameRoles rfl rfl id ?_ ?_ (by rintro ⟨⟩) rfl rfl rfl) hloc
            ⟨hk, htype, hcond, fun _ => rfl, trivial⟩
          · intro hl
            simp only [Pc.longWaiter] at hl ⊢
            simp [hl]
          · exact fun _ => Or.inl rfl
  | sem =>
      simp only [muLockSlow] at hs
      exact h.semP (p := .lockSlow l k .waitLoad) hpc rfl rfl ⟨hk, htype, hcond, hlong, trivial⟩ rfl rfl hs

end Nsync.Mu
