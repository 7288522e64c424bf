import Nsync.Mu.RefineWake

/-!
# Conditional waiting refines the protocol

`nsync_mu_wait_with_deadline` and `mu_try_acquire_after_timeout_or_cancel`.
-/

namespace Nsync.Mu

open Nsync.Lib

variable {T σ : Type} [DecidableEq T] [Fintype T] {E : Env σ} {C : WaitCondition → Prop}
  {s : State T σ} {loc : T → Loc T} {t : T} {l : MuWait}

omit [DecidableEq T] in
/-- The mode that a wait reads off the word is the one in which it was called. -/
theorem Good.heldMode (h : Good E C s loc) {m : Mode} (hm : (s.pc t).lockRole = some m) :
    (if s.word &&& muRheldIfNonZero ≠ 0#32 then Mode.reader else Mode.writer) = m := by
  have hshare : (view s.word).HasShare m := h.inv.lock.shares.hasShare (t := t) hm
  simp only [show muRheldIfNonZero = muRlockField from rfl, ne_eq, and_muRlockField]
  cases m with
  | reader => exact if_pos (Nat.pos_iff_ne_zero.mp hshare)
  | writer => exact if_neg (not_not_intro (h.inv.lock.shares.excl hshare))

/-- A condition is found false: the waiter is set up for the wait. -/
theorem Good.setUp (h : Good E C s loc) (hpc : s.pc t = .muWait l .evalCondition) :
    Simulates E C t s loc ((s.setWtr t fun w =>
      { w with cvMu := false, lType := l.lType, cond := l.condition }).setPc t
        (.muWait l .storeWaiting)) := by
  obtain ⟨he, hC, -⟩ : Pc.Ok C (s.wtr t) (.muWait l .evalCondition) := hpc ▸ (h.pcs t).ok
  have hloc : loc t = .none := h.inv.place.loc_of_idle (u := t) (by
    simp [State.abs, Pc.abs, hpc, Pc.phase])
  exact h.own hpc (Pc.sameRoles rfl rfl id id (by rintro ⟨⟩) (by rintro ⟨⟩) rfl rfl rfl) hloc (Or.inl (Or.inl hloc))
    (Or.inl hloc) hC ⟨he, hC, rfl, rfl⟩

/-- The conditional waiter joins the queue. -/
theorem Good.muEnqueue (h : Good E C s loc) {old : Word}
    (hpc : s.pc t = .muWait l (.enqueue (.cas old))) (hword : s.word = old) {l' : MuWait}
    (hl' : l'.entry = l.entry ∧ l'.lType = l.lType ∧ l'.condition = l.condition ∧
      l'.removeCount = l.removeCount) {q : List T} {k : Links T}
    (hq : (q = s.waiters ++ [t] ∧
        k = maybeMergeConditions E s.wtr s.links s.waiters.getLast? (some t)) ∨
      (q = t :: s.waiters ∧
        k = maybeMergeConditions E s.wtr s.links (some t) s.waiters.head?)) :
    Simulates E C t s loc
      { ((s.setWord (spinWord (muSpinlock ||| muWaiting ||| maskIf l.condition.isSome muCondition)
          muAllFalse old)).setDequeued t false).setPc t (.muWait l' (.release .load)) with
        waiters := q
        links := k } := by
  subst hword
  obtain ⟨hle, hll, hlc, hlr⟩ := hl'
  obtain ⟨he, hC, ⟨hm, hc⟩, hspin⟩ : Pc.Ok C (s.wtr t) (.muWait l (.enqueue (.cas s.word))) :=
    hpc ▸ (h.pcs t).ok
  have hcompat : Compat (loc t) (s.wtr t).core (s.pc t).phase := h.inv.place.compat t
  rw [hpc] at hcompat
  have hloc : loc t = .none := hcompat.1
  have halone : s.links.next t = t ∧ s.links.prev t = t :=
    h.alone (by simp [hloc]) (by simp [hloc])
  have htq : t ∉ s.waiters := fun hm => by simpa [hloc] using (h.lists.muQ.mem t).mp hm
  have hconds : ∀ x c, (s.wtr x).cond = some c → C c := h.inv.place.conds
  have hlists : ∀ u, ((Function.update s.pc t (.muWait l' (.release .load))) u).lists =
      (s.pc u).lists :=
    Pc.lists_set (by rw [hpc]; rfl)
  -- the new ring structure of the queue
  have hring : Segmented k (SameTruth E C s.wtr) q ∧ Outside s.links k q := by
    rcases hq with ⟨rfl, rfl⟩ | ⟨rfl, rfl⟩
    · refine segmented_merge hconds h.rings.muQ (Segmented.singleton halone) ?_
      exact (h.lists.muQ.snoc (k := .muQ) (x := t) (by simp [hloc])).nodup
    · exact segmented_merge (l := [t]) hconds (Segmented.singleton halone) h.rings.muQ
        (List.nodup_cons.mpr ⟨htq, h.lists.muQ.nodup⟩)
  have hmem : ∀ x, x ∈ q ↔ x = t ∨ x ∈ s.waiters := by
    intro x
    rcases hq with ⟨rfl, -⟩ | ⟨rfl, -⟩
    · simp [or_comm]
    · simp
  have hstep := AStep.muEnqueue (E := E) (C := C) (t := t) (a := s.abs loc) l.removeCount
    (by simp [State.abs, Pc.abs, hpc, Pc.phase]) (by simp [State.abs, Pc.abs, hpc, Pc.spinRole])
    (by simp [State.abs, Pc.abs, hpc, Pc.region]) hspin
  refine h.next (Function.update loc t .muQ)
    (hstep.of_eq (AState.ext ?_ (State.abs_th (s := s) rfl ?_) rfl rfl rfl rfl rfl rfl))
    (fun u hu => by simp [State.setPc, State.setDequeued, State.setWord, hu])
    (h.lists.joinMu hlists (fun _ => rfl) (Or.inl hloc) (hq.imp And.left And.left))
    (PcOk.of_ok (State.setPc_self _ t _) ⟨?_, ?_, ?_, ?_⟩ rfl rfl)
    (h.rings.requeue t hlists hring.2 ?_ hring.1 (fun _ _ _ => rfl) ?_)
  · have hcond : (s.wtr t).core.cond = l.condition := hc
    simp only [State.abs, hcond]
    exact view_muWaitEnqueueWord _ _
  · simp only [State.abs, hpc, Pc.abs, Pc.phase, Pc.lockRole, hlr, hll]
    rfl
  · rw [hle, hll, he]
  · rw [MuWait.CondIn, hlc]
    exact hC
  · rw [hll]
    exact hm
  · rw [hlc]
    exact hc
  · intro x hx u hxu
    have hp := ((h.lists.priv u).mem x).mp hxu
    rcases (hmem x).mp hx with rfl | hx
    · simp [hloc] at hp
    · simp [(h.lists.muQ.mem x).mp hx] at hp
  · intro x hx _ hx'
    refine (hx ?_).elim
    rcases hx' with hx' | hx'
    · exact (hmem x).mpr (Or.inr hx')
    · exact hx'

/-- The release of mutex and spinlock, or of the spinlock only. -/
theorem Good.muRelease (h : Good E C s loc) {old : Word}
    (hpc : s.pc t = .muWait l (.release (.cas old))) (hword : s.word = old) :
    Simulates E C t s loc
      (if muWaitAdd l old = 0#32 then
        (s.setWord (muWaitReleaseWord l old)).setPc t
          (.unlockSlow l.lType (.muWait { l with semOutcome := .ok, haveLock := false }) .top)
      else (s.setWord (muWaitReleaseWord l old)).setPc t
        (.muWait { l with semOutcome := .ok, haveLock := false } .waitLoad)) := by
  subst hword
  obtain ⟨he, hC, hm, hc⟩ : Pc.Ok C (s.wtr t) (.muWait l (.release (.cas s.word))) :=
    hpc ▸ (h.pcs t).ok
  have hlock : ((s.abs loc).th t).lock = some l.lType := by
    simp only [State.abs, hpc]
    rfl
  have hshare : (view s.word).HasShare l.lType := h.inv.lock.shares.hasShare hlock
  have hw := view_muWaitReleaseWord hshare
  split
  · next hz =>
      rw [if_pos hz] at hw
      exact h.releaseSpin (p := .unlockSlow l.lType _ .top) hpc rfl (by rintro ⟨⟩) rfl rfl hw
        (PcOk.of_ok (State.setPc_self _ t _) ⟨⟨he, rfl, hC, rfl, hm, hc⟩, trivial⟩ rfl rfl)
  · next hz =>
      rw [if_neg hz] at hw
      have hstep := AStep.muRelease (E := E) (C := C) (t := t) (a := s.abs loc) l.lType hlock
        (by simp [State.abs, Pc.abs, hpc, Pc.spinRole]) (by simp [State.abs, Pc.abs, hpc, Pc.region])
      refine h.simple loc (p := .muWait _ .waitLoad) rfl (by rw [hpc]; rfl) rfl (fun _ => rfl) rfl
        (fun _ => Or.inl rfl)
        (hstep.of_eq (AState.ext hw (State.abs_th rfl ?_) rfl rfl rfl rfl rfl rfl))
        (PcOk.of_ok (State.setPc_self _ t _) ⟨he, hC, fun _ => ⟨hm, hc⟩⟩ rfl rfl)
      simp only [State.abs, hpc]
      rfl

/-- A waiter of the mutex that has been woken goes back to
`nsync_mu_lock_slow_`. -/
theorem Good.relock (h : Good E C s loc) (hpc : s.pc t = .muWait l .waitLoad)
    (hwait : (s.wtr t).waiting = false) (hlock : l.haveLock = false) :
    Simulates E C t s loc (Nsync.Mu.startLockSlow s t l.lType true (.muWait l)) := by
  obtain ⟨he, hC, harmed⟩ : Pc.Ok C (s.wtr t) (.muWait l .waitLoad) := hpc ▸ (h.pcs t).ok
  obtain ⟨hm, -⟩ := harmed hlock
  have hcompat : Compat (loc t) (s.wtr t).core (s.pc t).phase := h.inv.place.compat t
  rw [hpc] at hcompat
  simp only [Pc.phase, hlock] at hcompat
  have hloc : loc t = .woken := by
    rcases hcompat with ⟨-, hw, -⟩ | ⟨-, hw, -⟩ | ⟨hl, -⟩
    · exact Bool.noConfusion (hwait.symm.trans hw)
    · exact Bool.noConfusion (hwait.symm.trans hw)
    · exact hl
  refine h.own (p := .lockSlow ⟨l.lType, true, 0, false⟩ (.muWait l) .top) hpc ?_ hloc
    (Or.inl (Or.inr hloc)) (Or.inr hm.symm) (by rintro _ ⟨⟩)
    ⟨⟨he, rfl, hC⟩, rfl, rfl, (by rintro ⟨⟩), trivial⟩
  refine Pc.sameRoles rfl ?_ id id (by rintro ⟨⟩) (by rintro ⟨⟩) rfl rfl rfl
  simp only [Pc.lockRole, hlock]
  rfl

theorem Good.tryAcquire (h : Good E C s loc) {old : Word}
    (hpc : s.pc t = .muWait l (.tryAcquire old)) (hword : s.word = old) :
    Simulates E C t s loc
      ((s.setWord (tryAcquireWord old)).setPc t (.muWait l (.tryCheckWaiting old))) := by
  subst hword
  obtain ⟨he, hC, hlock, harmed, hw, hr, hlw, hspin⟩ :
      Pc.Ok C (s.wtr t) (.muWait l (.tryAcquire s.word)) := hpc ▸ (h.pcs t).ok
  have hstep := AStep.tryAcquire (E := E) (C := C) (t := t) (a := s.abs loc) s.word
    (by simp [State.abs, Pc.abs, hpc, Pc.lockRole]) (by simp [State.abs, Pc.abs, hpc, Pc.spinRole])
    (by simp [State.abs, Pc.abs, hpc, Pc.trying]) rfl hw hr hlw hspin
  refine h.simple loc (p := .muWait l (.tryCheckWaiting s.word)) rfl (by rw [hpc]; rfl) rfl
    (fun _ => rfl) rfl (fun _ => Or.inl rfl)
    (hstep.of_eq (AState.ext (view_tryAcquireWord hw hspin) (State.abs_th rfl ?_) rfl rfl rfl rfl
      rfl rfl))
    (PcOk.of_ok (State.setPc_self _ t _) ⟨he, hC, hlock, harmed⟩ rfl rfl)
  simp only [State.abs, hpc]
  rfl

theorem Good.setWriterWaiting (h : Good E C s loc) {old : Word}
    (hpc : s.pc t = .muWait l (.trySetWriterWaiting old)) (hword : s.word = old) :
    Simulates E C t s loc ((s.setWord (old ||| muWriterWaiting)).setPc t (.muWait l .tryLoad)) := by
  subst hword
  obtain ⟨he, hC, hlock, harmed, hspin⟩ :
      Pc.Ok C (s.wtr t) (.muWait l (.trySetWriterWaiting s.word)) := hpc ▸ (h.pcs t).ok
  have hstep := AStep.setWriterWaiting (E := E) (C := C) (t := t) (a := s.abs loc)
    (by simp [State.abs, Pc.abs, hpc, Pc.trying]) hspin
  refine h.simple loc (p := .muWait l .tryLoad) rfl (by rw [hpc]; rfl) rfl
    (fun _ => rfl) rfl (fun _ => Or.inl rfl)
    (hstep.of_eq (AState.ext (view_or_muWriterWaiting s.word) ?_ rfl rfl rfl rfl rfl rfl))
    (PcOk.of_ok (State.setPc_self _ t _) ⟨he, hC, hlock, harmed⟩ rfl rfl)
  refine (State.abs_th (s := s) (p := .muWait l .tryLoad) rfl ?_).trans
    (Function.update_eq_self t _)
  rw [hpc]
  rfl

/-- While a thread holds both locks, no scan has taken waiters. -/
theorem Good.not_priv_of_hold (h : Good E C s loc) {old : Word}
    (hspin : (s.pc t).spinRole = .hold old) (hreg : (s.pc t).region = false) (u x : T) :
    loc x ≠ .priv u := by
  intro hx
  have hu := (h.inv.place.priv x u hx).1
  have hut : u ≠ t := by
    rintro rfl
    rw [show ((s.abs loc).th u).region = (s.pc u).region from rfl, hreg] at hu
    cases hu
  rcases (h.inv.lock.wf u).region hu with hsp | hlk
  · exact hsp (h.inv.lock.no_spin_of (t := t) (by simp [State.abs, Pc.abs, hspin]) hut)
  · exact hut (h.inv.lock.eq_of_hold (u := t) hspin hlk)

/-- The check of `remove_count` finds out whether the waiter is still queued. -/
theorem Good.checkCount (h : Good E C s loc) {old : Word}
    (hpc : s.pc t = .muWait l (.tryCheckCount old)) (hrc : l.removeCount = (s.wtr t).removeCount) :
    Simulates E C t s loc (s.setPc t (.muWait l (.tryRemove old .load))) := by
  obtain ⟨he, hC, hlock, harmed⟩ : Pc.Ok C (s.wtr t) (.muWait l (.tryCheckCount old)) :=
    hpc ▸ (h.pcs t).ok
  have hcompat : Compat (loc t) (s.wtr t).core (s.pc t).phase := h.inv.place.compat t
  rw [hpc] at hcompat
  have hne : l.removeCount ≠ l.removeCount + 1#32 := by bv_omega
  have hmine : loc t = .muQ ∧ (s.wtr t).waiting = true := by
    rcases hcompat with ⟨hq | ⟨u, hu⟩, hw, -⟩ | ⟨-, -, hr⟩ | ⟨-, -, hr⟩
    · exact ⟨hq, hw⟩
    · exact (h.not_priv_of_hold (t := t) (by rw [hpc]; rfl) (by rw [hpc]; rfl) u t hu).elim
    · exact (hne (hrc.trans hr)).elim
    · exact (hne (hrc.trans hr)).elim
  refine h.ownGoto hpc ⟨rfl, rfl, rfl, rfl, rfl, id, id, nofun, nofun, fun _ => ⟨old, rfl⟩, ?_, rfl,
    rfl⟩ hmine ⟨he, hC, hlock, harmed⟩
  rintro c (hc | hc) <;> cases hc

/-- The waiter takes itself off the queue. -/
theorem Good.removeSelf (h : Good E C s loc) {old rc : Word}
    (hpc : s.pc t = .muWait l (.tryRemove old (.cas rc))) :
    Simulates E C t s loc
      { (s.setWtr t Waiter.removed).setPc t (.muWait l (.tryClearWaiting old)) with
        waiters := s.waiters.erase t
        links := removeSameCondition E s.wtr s.links s.waiters t } := by
  obtain ⟨he, hC, hlock, harmed⟩ : Pc.Ok C (s.wtr t) (.muWait l (.tryRemove old (.cas rc))) :=
    hpc ▸ (h.pcs t).ok
  have hcompat : Compat (loc t) (s.wtr t).core (s.pc t).phase := h.inv.place.compat t
  rw [hpc] at hcompat
  have hloc : loc t = .muQ := hcompat.1
  have htq : t ∈ s.waiters := (h.lists.muQ.mem t).mpr hloc
  have hconds : ∀ x c, (s.wtr x).cond = some c → C c := h.inv.place.conds
  obtain ⟨hseg, hout, halone⟩ := segmented_remove hconds h.rings.muQ h.lists.muQ.nodup htq
  have hwtr : ∀ y, ((s.setWtr t Waiter.removed).wtr y).cond = (s.wtr y).cond := by
    intro y
    by_cases hy : y = t
    · subst hy
      simp [State.setWtr, Waiter.removed]
    · simp [State.setWtr, hy]
  have hlists : ∀ u, ((Function.update s.pc t (.muWait l (.tryClearWaiting old))) u).lists =
      (s.pc u).lists := Pc.lists_set (by rw [hpc]; rfl)
  have hstep := AStep.removeSelf (E := E) (C := C) (t := t) (a := s.abs loc)
    (by simp [State.abs, Pc.abs, hpc, Pc.phase])
  refine h.next (Function.update loc t .none)
    (hstep.of_eq (AState.ext rfl (State.abs_th (s := s) rfl ?_) rfl ?_ rfl rfl rfl rfl))
    (fun u hu => by simp [State.setPc, State.setWtr, hu])
    (h.lists.leaveMu hlists (fun _ => rfl) hloc rfl)
    (PcOk.of_ok (State.setPc_self _ t _) (Pc.Ok.congr (w := s.wtr t) ⟨he, hC, hlock, harmed⟩ ?_ ?_)
      rfl rfl)
    (h.rings.requeue t hlists hout ?_ ?_ (fun x _ _ => hwtr x) ?_)
  · simp only [State.abs, hpc]
    rfl
  · funext y
    by_cases hy : y = t
    · subst hy
      simp [State.abs, State.setPc, State.setWtr, Waiter.core, Waiter.removed]
    · simp [State.abs, State.setPc, State.setWtr, hy]
  · simp [State.setPc, State.setWtr, Waiter.removed]
  · simp [State.setPc, State.setWtr, Waiter.removed]
  · intro x hx u hxu
    have hp := ((h.lists.priv u).mem x).mp hxu
    simp [(h.lists.muQ.mem x).mp hx] at hp
  · exact Segmented.keep hseg (k := []) (fun _ _ => ⟨rfl, rfl⟩) (by simp) fun y _ => hwtr y
  · intro x hx _ hx'
    have hxq : x ∈ s.waiters := hx'.elim id id
    have : x = t := by
      by_contra hxt
      exact hx ((List.mem_erase_of_ne hxt).mpr hxq)
    exact this ▸ halone

/-- After a successful attempt the thread holds the mutex in its own mode. -/
theorem Good.tryDone (h : Good E C s loc) {old : Word}
    (hpc : s.pc t = .muWait l (.tryStoreAcquired old)) :
    Simulates E C t s loc
      (((s.setWord (old + l.lType.lockType.addToAcquire)).acquired t l.lType).setPc t
        (.muWait { l with haveLock := true, outcome := l.semOutcome } .delay)) := by
  obtain ⟨he, hC, hlock, harmed⟩ : Pc.Ok C (s.wtr t) (.muWait l (.tryStoreAcquired old)) :=
    hpc ▸ (h.pcs t).ok
  have hspin : ((s.abs loc).th t).spin = .hold old := by
    simp [State.abs, Pc.abs, hpc, Pc.spinRole]
  obtain ⟨-, hw, hr, -⟩ := h.inv.lock.hold t old hspin
  have hroom : (view old).HasRoom l.lType := by
    cases l.lType with
    | writer => exact hw
    | reader =>
        change (view old).readers + 1 < 2 ^ 24
        omega
  have hstep := AStep.tryDone (E := E) (C := C) (t := t) (a := s.abs loc) l.lType old hspin
    (by simp [State.abs, Pc.abs, hpc, Pc.phase]) (by simp [State.abs, Pc.abs, hpc, Pc.region])
  refine h.simple loc (p := .muWait { l with haveLock := true, outcome := l.semOutcome } .delay) rfl
    (by rw [hpc]; rfl) rfl (fun _ => rfl) rfl (fun _ => Or.inl rfl)
    (hstep.of_eq (AState.ext (view_add_share hroom) (State.abs_th rfl ?_) rfl rfl rfl rfl rfl rfl))
    (PcOk.of_ok (State.setPc_self _ t _) ⟨he, hC, (by rintro ⟨⟩)⟩ rfl rfl)
  simp only [State.abs, hpc]
  rfl

theorem Good.tryFail (h : Good E C s loc) {old : Word}
    (hpc : s.pc t = .muWait l (.tryStoreFailed old)) :
    Simulates E C t s loc ((s.setWord old).setPc t (.muWait l .delay)) := by
  obtain ⟨he, hC, hlock, harmed⟩ : Pc.Ok C (s.wtr t) (.muWait l (.tryStoreFailed old)) :=
    hpc ▸ (h.pcs t).ok
  have hstep := AStep.tryFail (E := E) (C := C) (t := t) (a := s.abs loc) old
    (by simp [State.abs, Pc.abs, hpc, Pc.spinRole]) (by simp [State.abs, Pc.abs, hpc, Pc.phase])
    (by simp [State.abs, Pc.abs, hpc, Pc.region])
  refine h.simple loc (p := .muWait l .delay) rfl (by rw [hpc]; rfl) rfl (fun _ => rfl) rfl
    (fun _ => Or.inl rfl) (hstep.of_eq (AState.ext rfl (State.abs_th rfl ?_) rfl rfl rfl rfl rfl rfl))
    (PcOk.of_ok (State.setPc_self _ t _) ⟨he, hC, fun _ => harmed⟩ rfl rfl)
  simp only [State.abs, hpc, Pc.abs, Pc.lockRole, Pc.phase, hlock]
  rfl

/-- A wait for the semaphore that a deadline or a note may end. -/
theorem Good.semWaitWithCancel (h : Good E C s loc) {q : Pc T} {p : Outcome → Pc T} {ex : Bool}
    {ch : Choice} {s' : State T σ} (hpc : s.pc t = q)
    (hp : ∀ o, (p o).lists = q.lists ∧ (p o).abs = q.abs ∧ (p o).Ok C (s.wtr t) ∧
      (p o).target = none ∧ (p o).scan? = none)
    (hs : semWaitWithCancel s t ex p ch = some s') : Simulates E C t s loc s' := by
  have hgo : ∀ o, Simulates E C t s loc (s.setPc t (p o)) := fun o =>
    h.goto hpc (hp o).1 (hp o).2.1 (hp o).2.2.1 (hp o).2.2.2.1 (hp o).2.2.2.2
  cases ch with
  | run => exact h.semP hpc (hp _).1 (hp _).2.1 (hp _).2.2.1 (hp _).2.2.2.1 (hp _).2.2.2.2 hs
  | timeout =>
      simp only [Nsync.Mu.semWaitWithCancel] at hs
      split at hs
      · cases hs
        exact hgo _
      · cases hs
  | cancel =>
      simp only [Nsync.Mu.semWaitWithCancel] at hs
      split at hs
      · cases hs
        exact hgo _
      · cases hs

theorem muWaitWithDeadline_simulates (h : Good E C s loc) {ch : Choice} {p : MuWaitPc}
    (hpc : s.pc t = .muWait l p) {s' : State T σ}
    (hs : muWaitWithDeadline E s t l ch p = some s') : Simulates E C t s loc s' := by
  have hok := (h.pcs t).ok
  have hcompat : Compat (loc t) (s.wtr t).core (s.pc t).phase := h.inv.place.compat t
  rw [hpc] at hok hcompat
  obtain ⟨he, hC, hp⟩ := hok
  cases p with
  | loadWord =>
      simp only [muWaitWithDeadline] at hs
      have hlock : (s.pc t).lockRole = some l.entry := by
        rw [hpc]
        rfl
      split at hs
      · next hz =>
          have hshare := h.inv.lock.shares.hasShare (t := t) hlock
          rw [and_muAnyLock] at hz
          exact (hshare.not_free hz.1 hz.2).elim
      · cases hs
        rw [h.heldMode hlock]
        exact h.goto hpc rfl rfl ⟨rfl, hC, trivial⟩ rfl rfl
  | evalCondition =>
      have hret : ∀ r, Simulates E C t s loc
          { s.setPc t (.client (some l.lType)) with result := r } := fun r =>
        h.stutter (p := .client (some l.lType)) rfl (by rw [hpc]; rfl) rfl rfl rfl rfl
          (fun _ => rfl) rfl rfl rfl (by rw [hpc]; rfl)
          (PcOk.of_ok (State.setPc_self _ t _) trivial rfl rfl)
      simp only [muWaitWithDeadline] at hs
      split at hs
      · split at hs
        · cases hs
          exact h.setUp hpc
        · cases hs
          exact hret _
      · split at hs
        · cases hs
          exact h.setUp hpc
        · cases hs
          exact hret _
  | storeWaiting =>
      cases hs
      have hloc : loc t = .none := hcompat
      exact h.own hpc (Pc.sameRoles rfl rfl id id (by rintro ⟨⟩) (by rintro ⟨⟩) rfl rfl rfl) ⟨hloc, rfl⟩
        (Or.inl (Or.inl hloc)) (Or.inl hloc) (h.inv.place.conds t) ⟨he, hC, hp⟩
  | loadRemoveCount =>
      cases hs
      exact h.ownGoto hpc (Pc.sameRoles rfl rfl id id (by rintro ⟨⟩) (by rintro ⟨⟩) rfl rfl rfl)
        ⟨hcompat.1, hcompat.2, rfl⟩ ⟨he, hC, hp⟩
  | enqueue lc =>
      cases lc with
      | load =>
          simp only [muWaitWithDeadline] at hs
          split at hs
          · next hspin =>
              cases hs
              exact h.goto hpc rfl rfl ⟨he, hC, hp, (and_muSpinlock s.word).mp hspin⟩ rfl rfl
          · cases hs
            exact h.goto hpc rfl rfl ⟨he, hC, hp⟩ rfl rfl
      | cas old =>
          simp only [muWaitWithDeadline] at hs
          split at hs
          · next hword =>
              cases hs
              refine h.muEnqueue hpc hword ?_ ?_
              · exact ⟨rfl, rfl, rfl, rfl⟩
              · cases l.firstWait
                · exact Or.inr ⟨rfl, rfl⟩
                · exact Or.inl ⟨rfl, rfl⟩
          · cases hs
            exact h.goto hpc rfl rfl ⟨he, hC, hp.1⟩ rfl rfl
  | release lc =>
      cases lc with
      | load =>
          cases hs
          exact h.goto hpc rfl rfl ⟨he, hC, hp⟩ rfl rfl
      | cas old =>
          simp only [muWaitWithDeadline] at hs
          split at hs
          · next hword =>
              have := h.muRelease hpc hword
              split at hs <;> cases hs <;> simp_all
          · cases hs
            exact h.goto hpc rfl rfl ⟨he, hC, hp⟩ rfl rfl
  | waitLoad =>
      simp only [muWaitWithDeadline] at hs
      split at hs
      · next hwait =>
          split at hs
          · cases hs
            have hlock : l.haveLock = false := by
              by_contra hl
              rw [Bool.not_eq_false] at hl
              simp only [Pc.phase, hl] at hcompat
              exact Bool.noConfusion (hwait.symm.trans hcompat.2)
            refine h.goto hpc rfl ?_ ⟨he, hC, hlock, hp hlock⟩ rfl rfl
            simp only [Pc.abs, Pc.lockRole, Pc.phase, hlock]
            rfl
          · cases hs
            exact h.goto hpc rfl rfl ⟨he, hC, hp⟩ rfl rfl
      · next hwait =>
          rw [Bool.not_eq_true] at hwait
          split at hs
          · next hl =>
              cases hs
              simp only [Pc.phase, hl] at hcompat
              refine h.ownGoto hpc (Pc.sameRoles rfl ?_ id id (by rintro ⟨⟩) (by rintro ⟨⟩) rfl rfl rfl) hcompat.1
                ⟨he, hC, trivial⟩
              simp only [Pc.lockRole, hl]
              rfl
          · next hl =>
              cases hs
              exact h.relock hpc hwait (by simpa using hl)
  | sem =>
      simp only [muWaitWithDeadline] at hs
      refine h.semWaitWithCancel hpc (fun o => ?_) hs
      by_cases ho : o = .ok
      · rw [if_pos ho]
        refine ⟨rfl, ?_, ⟨he, hC, fun _ => hp.2⟩, rfl, rfl⟩
        simp only [Pc.abs, Pc.lockRole, Pc.phase, hp.1]
        rfl
      · rw [if_neg ho]
        exact ⟨rfl, rfl, ⟨he, hC, hp⟩, rfl, rfl⟩
  | recheck =>
      simp only [muWaitWithDeadline] at hs
      split at hs
      · cases hs
        exact h.ownGoto hpc (Pc.sameRoles rfl rfl (fun _ => rfl) id (by rintro ⟨⟩) (by rintro ⟨⟩) rfl rfl rfl) hcompat
          ⟨he, hC, hp⟩
      · cases hs
        refine h.goto hpc rfl ?_ ⟨he, hC, fun _ => hp.2⟩ rfl rfl
        simp only [Pc.abs, Pc.lockRole, Pc.phase, hp.1]
        rfl
  | tryLoad =>
      simp only [muWaitWithDeadline] at hs
      split at hs
      · next hz =>
          cases hs
          exact h.goto hpc rfl rfl ⟨he, hC, hp.1, hp.2, (and_tryMask s.word).mp hz⟩ rfl rfl
      · split at hs
        · next hz =>
            cases hs
            exact h.goto hpc rfl rfl
              ⟨he, hC, hp.1, hp.2, ((and_writerWaiting_spin s.word).mp hz).2⟩ rfl rfl
        · cases hs
          exact h.goto hpc rfl rfl ⟨he, hC, hp⟩ rfl rfl
  | tryAcquire old =>
      simp only [muWaitWithDeadline] at hs
      split at hs
      · next hword =>
          cases hs
          exact h.tryAcquire hpc hword
      · split at hs
        · next hz =>
            cases hs
            exact h.goto hpc rfl rfl
              ⟨he, hC, hp.1, hp.2.1, ((and_writerWaiting_spin old).mp hz).2⟩ rfl rfl
        · cases hs
          exact h.goto hpc rfl rfl ⟨he, hC, hp.1, hp.2.1⟩ rfl rfl
  | trySetWriterWaiting old =>
      simp only [muWaitWithDeadline] at hs
      split at hs
      · next hword =>
          cases hs
          exact h.setWriterWaiting hpc hword
      · cases hs
        exact h.goto hpc rfl rfl ⟨he, hC, hp.1, hp.2.1⟩ rfl rfl
  | tryCheckWaiting old =>
      simp only [muWaitWithDeadline] at hs
      split at hs <;> cases hs <;> exact h.goto hpc rfl rfl ⟨he, hC, hp⟩ rfl rfl
  | tryCheckCount old =>
      simp only [muWaitWithDeadline] at hs
      split at hs
      · next hrc =>
          cases hs
          exact h.checkCount hpc hrc
      · cases hs
        exact h.goto hpc rfl rfl ⟨he, hC, hp⟩ rfl rfl
  | tryRemove old lc =>
      cases lc with
      | load =>
          cases hs
          exact h.goto hpc rfl rfl ⟨he, hC, hp⟩ rfl rfl
      | cas rc =>
          simp only [muWaitWithDeadline] at hs
          split at hs
          · cases hs
            exact h.removeSelf hpc
          · cases hs
            exact h.goto hpc rfl rfl ⟨he, hC, hp⟩ rfl rfl
  | tryClearWaiting old =>
      cases hs
      have hloc : loc t = .none := hcompat.1
      exact h.own hpc (Pc.sameRoles rfl rfl id id (by rintro ⟨⟩) (by rintro ⟨⟩) rfl rfl rfl) ⟨hloc, rfl⟩
        (Or.inl (Or.inl hloc)) (Or.inl hloc) (h.inv.place.conds t) ⟨he, hC, hp⟩
  | tryStoreAcquired old =>
      cases hs
      exact h.tryDone hpc
  | tryStoreFailed old =>
      cases hs
      exact h.tryFail hpc
  | delay =>
      cases hs
      exact h.goto hpc rfl rfl ⟨he, hC, hp⟩ rfl rfl

end Nsync.Mu
