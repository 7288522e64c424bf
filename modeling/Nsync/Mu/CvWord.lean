import Nsync.Mu.Conservation

/-!
# The word of a condition variable

`CV_NON_EMPTY` is set whenever the queue has a waiter, and while the spinlock is
free it is set only then.  The word is often written by a plain store of a
remembered value; the holder of the spinlock knows how that value relates to the
queue.
-/

namespace Nsync.Mu

open Nsync.Lib

variable {T σ : Type}

/-- `CV_NON_EMPTY` in the word `w` tells whether the queue `l` is empty. -/
def Tells (w : Word) (l : List T) : Prop := w.getLsbD 1 = true ↔ l ≠ []

/-- What the holder of the spinlock of a condition variable knows about its queue
and the word that it remembers. -/
def Pc.CvKnows (cv : Addr → Cv T) : Pc T → Prop
  | .cvWait l p =>
      match p with
      | .loadRemoveCount _ | .storeWord _ => (cv l.pcv).waiters ≠ []
      | .checkWaiting old | .checkCount old | .remove old _ | .clearWaiting old
      | .releaseWord old => Tells old (cv l.pcv).waiters
      | _ => True
  | .signal l p =>
      match p with
      | .removeFirst old x _ => old.getLsbD 1 = true ∧ l.broadcast = false ∧
          (cv l.pcv).waiters.head? = some x
      -- a broadcast always looks at the first waiter
      | .loop old => old.getLsbD 1 = true ∧
          (l.broadcast = true → l.p = (cv l.pcv).waiters.head?)
      | .remove old x _ => old.getLsbD 1 = true ∧
          (l.broadcast = true → (cv l.pcv).waiters.head? = some x)
      | .storeWord old => Tells old (cv l.pcv).waiters ∧
          (l.broadcast = true → (cv l.pcv).waiters = [])
      | _ => True
  | _ => True

theorem Pc.cvKnows_of_no {p : Pc T} (h : p.cvRole = .no) (cv : Addr → Cv T) : p.CvKnows cv := by
  cases p with
  | cvWait l p => cases p <;> trivial
  | signal l p => cases p <;> trivial
  | _ => trivial

theorem Pc.CvKnows.congr {p : Pc T} {cv cv' : Addr → Cv T} (h : p.CvKnows cv)
    (hcv : ∀ c, p.cvRole.addr = some c → cv' c = cv c) : p.CvKnows cv' := by
  cases p with
  | cvWait l p =>
      cases p <;> first | trivial | (simp only [Pc.CvKnows, hcv l.pcv rfl]; exact h)
  | signal l p =>
      cases p <;> first | trivial | (simp only [Pc.CvKnows, hcv l.pcv rfl]; exact h)
  | _ => trivial

/-- The words of the condition variables describe their queues. -/
structure CvKnown (s : State T σ) : Prop where
  set : ∀ c, (s.cv c).waiters ≠ [] → (s.cv c).word.getLsbD 1 = true
  tells : ∀ c, CvFree (s.cv c).word → Tells (s.cv c).word (s.cv c).waiters
  pcs : ∀ u, (s.pc u).CvKnows s.cv

/-! ## Words -/

theorem getLsbD_spinWord (old : Word) :
    (spinWord cvSpinlock 0#32 old).getLsbD 1 = old.getLsbD 1 := by
  have : cvSpinlock.getLsbD 1 = false := by decide
  rw [spinWord_cvSpinlock, BitVec.getLsbD_or, this, Bool.or_false]

theorem not_cvFree_spinWord (old : Word) : ¬ CvFree (spinWord cvSpinlock 0#32 old) := by
  rw [spinWord_cvSpinlock, CvFree, getLsbD_or_cvSpinlock]
  exact Bool.noConfusion

theorem getLsbD_spinWord_enqueue (old : Word) :
    (spinWord (cvSpinlock ||| cvNonEmpty) 0#32 old).getLsbD 1 = true := by
  have : (cvSpinlock ||| cvNonEmpty).getLsbD 1 = true := by decide
  rw [spinWord, BitVec.not_zero, BitVec.and_allOnes, BitVec.getLsbD_or, this, Bool.or_true]

theorem getLsbD_or_cvNonEmpty (old : Word) : (old ||| cvNonEmpty).getLsbD 1 = true := by
  have : cvNonEmpty.getLsbD 1 = true := by decide
  rw [BitVec.getLsbD_or, this, Bool.or_true]

theorem getLsbD_andNot_cvNonEmpty (old : Word) : (old &&& ~~~cvNonEmpty).getLsbD 1 = false := by
  have : (~~~cvNonEmpty).getLsbD 1 = false := by decide
  rw [BitVec.getLsbD_and, this, Bool.and_false]

@[simp] theorem and_cvNonEmpty (w : Word) : w &&& cvNonEmpty = 0#32 ↔ w.getLsbD 1 = false :=
  and_twoPow_eq_zero w (by omega)

/-- The value that is stored after some waiters have been removed. -/
theorem tells_ite [DecidableEq T] {old : Word} (hold : old.getLsbD 1 = true) (l : List T) :
    Tells (if l = [] then old &&& ~~~cvNonEmpty else old) l := by
  split
  · next hl =>
      rw [hl, Tells, getLsbD_andNot_cvNonEmpty]
      simp
  · next hl => exact iff_of_true hold hl

/-! ## Steps -/

section

variable [DecidableEq T] {s s' : State T σ} {t : T} {p : Pc T} {c : Addr} {q : Cv T}

/-- A step that changes one condition variable, whose spinlock no other thread
holds. -/
theorem CvKnown.update (h : CvKnown s) (hcv : s'.cv = Function.update s.cv c q)
    (hpc : s'.pc = Function.update s.pc t p)
    (hother : ∀ u, u ≠ t → (s.pc u).cvRole.addr ≠ some c)
    (hset : q.waiters ≠ [] → q.word.getLsbD 1 = true)
    (htells : CvFree q.word → Tells q.word q.waiters)
    (hp : p.CvKnows (Function.update s.cv c q)) : CvKnown s' where
  set d hd := by
    rw [hcv] at hd ⊢
    rcases eq_or_ne d c with rfl | hdc
    · rw [Function.update_self] at hd ⊢
      exact hset hd
    · rw [Function.update_of_ne hdc] at hd ⊢
      exact h.set d hd
  tells d hd := by
    rw [hcv] at hd ⊢
    rcases eq_or_ne d c with rfl | hdc
    · rw [Function.update_self] at hd ⊢
      exact htells hd
    · rw [Function.update_of_ne hdc] at hd ⊢
      exact h.tells d hd
  pcs u := by
    rcases eq_or_ne u t with rfl | hu
    · rw [hpc, Function.update_self, hcv]
      exact hp
    · rw [hpc, Function.update_of_ne hu, hcv]
      refine (h.pcs u).congr fun d hd => Function.update_of_ne ?_ ..
      rintro rfl
      exact hother u hu hd

theorem CvKnown.same (h : CvKnown s) (hcv : s'.cv = s.cv) (hpc : s'.pc = Function.update s.pc t p)
    (hp : p.CvKnows s.cv) : CvKnown s' where
  set d hd := by
    rw [hcv] at hd ⊢
    exact h.set d hd
  tells d hd := by
    rw [hcv] at hd ⊢
    exact h.tells d hd
  pcs u := by
    rcases eq_or_ne u t with rfl | hu
    · rw [hpc, Function.update_self, hcv]
      exact hp
    · rw [hpc, Function.update_of_ne hu, hcv]
      exact h.pcs u

/-- A CAS that takes the spinlock. -/
theorem CvKnown.take (h : CvKnown s) {old : Word} (hw : (s.cv c).word = old) (hfree : CvFree old)
    (hcv : s'.cv = Function.update s.cv c ⟨spinWord cvSpinlock 0#32 old, (s.cv c).waiters⟩)
    (hpc : s'.pc = Function.update s.pc t p)
    (hother : ∀ u, u ≠ t → (s.pc u).cvRole.addr ≠ some c)
    (hp : Tells old (s.cv c).waiters →
      p.CvKnows (Function.update s.cv c ⟨spinWord cvSpinlock 0#32 old, (s.cv c).waiters⟩)) :
    CvKnown s' := by
  have htells : Tells old (s.cv c).waiters := hw ▸ h.tells c (hw ▸ hfree)
  refine h.update hcv hpc hother (fun hne => ?_) (fun hf => (not_cvFree_spinWord _ hf).elim)
    (hp htells)
  rw [getLsbD_spinWord]
  exact htells.mpr hne

/-- Nobody else holds a spinlock that `t` holds or can take. -/
def CvAlone (t : T) (s : State T σ) : Prop :=
  ∀ c, (s.pc t).cvRole.addr = some c ∨ CvFree (s.cv c).word →
    ∀ u, u ≠ t → (s.pc u).cvRole.addr ≠ some c

/-- A spinlock that `t` holds is not free. -/
def CvHeld (t : T) (s : State T σ) : Prop :=
  ∀ c, (s.pc t).cvRole.addr = some c → ¬ CvFree (s.cv c).word

theorem cvWaitWithDeadline_cvKnown {C : WaitCondition → Prop} {w : Waiter} {l : CvWait}
    {ch : Choice} {p : CvWaitPc} (h : CvKnown s) (halone : CvAlone t s) (hheld : CvHeld t s)
    (hpc : s.pc t = .cvWait l p) (hok : (s.pc t).Ok C w)
    (hs : cvWaitWithDeadline s t l ch p = some s') : CvKnown s' := by
  have hk := h.pcs t
  rw [hpc] at hok hk
  rcases p with _ | _ | ⟨_ | _⟩ | _ | _ | _ | _ | _ | ⟨_ | _⟩ | _ | _ | ⟨_, _ | _⟩ | _ | _ | _ <;>
    simp only [cvWaitWithDeadline] at hs
  case sem =>
    cases ch <;> simp only [semWaitWithCancel, semP] at hs <;> split at hs <;> cases hs
    all_goals exact h.same rfl rfl (Pc.cvKnows_of_no (by simp [Pc.cvRole]) _)
  case enqueue.cas old =>
    split at hs <;> cases hs
    · next hw =>
        refine h.update (t := t) rfl rfl (halone _ (Or.inr (hw ▸ hok.2.2.2)))
          (fun _ => getLsbD_spinWord_enqueue old) (fun hf => ?_) ?_
        · rw [CvFree, getLsbD_enqueue] at hf
          cases hf
        · simp [Pc.CvKnows]
    · exact h.same rfl rfl trivial
  case loadRemoveCount old =>
    cases hs
    exact h.same rfl rfl hk
  case storeWord old =>
    cases hs
    refine h.update (t := t) rfl rfl (halone _ (Or.inl (by rw [hpc]; rfl)))
      (fun _ => getLsbD_or_cvNonEmpty old) (fun _ => ?_) trivial
    rw [Tells, getLsbD_or_cvNonEmpty]
    exact iff_of_true rfl hk
  case spin.cas old =>
    split at hs <;> cases hs
    · next hw =>
        refine h.take (t := t) hw hok.2.2.2.2 rfl rfl
          (halone _ (Or.inr (hw ▸ hok.2.2.2.2))) fun htells => ?_
        simpa [Pc.CvKnows] using htells
    · exact h.same rfl rfl trivial
  case checkWaiting old | checkCount old | remove.load old =>
    first
    | split at hs <;> cases hs <;> exact h.same rfl rfl hk
    | cases hs; exact h.same rfl rfl hk
  case clearWaiting old =>
    cases hs
    exact h.same rfl rfl hk
  case remove.cas old rc =>
    split at hs <;> cases hs
    · have hsub : (s.cv l.pcv).waiters.erase t ≠ [] → (s.cv l.pcv).waiters ≠ [] := by
        intro hne hnil
        simp [hnil] at hne
      refine h.update (t := t) rfl rfl (halone _ (Or.inl (by rw [hpc]; rfl)))
        (fun hne => h.set _ (hsub hne)) (fun hf => (hheld _ (by rw [hpc]; rfl) hf).elim) ?_
      simp only [Pc.CvKnows, Function.update_self]
      by_cases hrest : (s.cv l.pcv).waiters.erase t = []
      · rw [if_pos hrest, hrest, Tells, getLsbD_andNot_cvNonEmpty]
        simp
      · rw [if_neg hrest]
        exact iff_of_true (hk.mpr (hsub hrest)) hrest
    · exact h.same rfl rfl hk
  case releaseWord old =>
    cases hs
    refine h.update (t := t) rfl rfl (halone _ (Or.inl (by rw [hpc]; rfl))) hk.mpr
      (fun _ => hk) trivial
  all_goals repeat' split at hs
  all_goals
    cases hs
    exact h.same rfl rfl trivial

theorem signalDone_cvKnown {s₁ : State T σ} {l : Signal T} {old : Word}
    (h : ∀ p : Pc T, p.CvKnows s₁.cv → CvKnown (s₁.setPc t p)) (hold : old.getLsbD 1 = true)
    (hb : l.broadcast = true → (s₁.cv l.pcv).waiters = []) :
    CvKnown (signalDone s₁ t l old) := by
  refine h _ ⟨?_, hb⟩
  split
  · next hbr =>
      rw [hb hbr]
      simp [Tells]
  · exact tells_ite hold _

theorem cvSignal_cvKnown {C : WaitCondition → Prop} {w : Waiter} {l : Signal T} {p : SignalPc T}
    (h : CvKnown s) (halone : CvAlone t s) (hheld : CvHeld t s) (hpc : s.pc t = .signal l p)
    (hok : (s.pc t).Ok C w) : CvKnown (cvSignal s t l p) := by
  have hk := h.pcs t
  rw [hpc] at hok hk
  -- the queue after a removal, under the spinlock
  have hremove : ∀ (x : T) (q : Pc T), (s.pc t).cvRole.addr = some l.pcv →
      q.CvKnows (Function.update s.cv l.pcv
        { s.cv l.pcv with waiters := (s.cv l.pcv).waiters.erase x }) →
      CvKnown (((s.setCv l.pcv { s.cv l.pcv with
        waiters := (s.cv l.pcv).waiters.erase x }).setWtr x Waiter.removed).setPc t q) := by
    intro x q hrole hq
    refine h.update (t := t) rfl rfl (halone _ (Or.inl hrole)) (fun hne => h.set _ ?_)
      (fun hf => (hheld _ hrole hf).elim) hq
    intro hnil
    simp [hnil] at hne
  rcases p with _ | ⟨_ | old⟩ | ⟨old, x, _ | _⟩ | old | ⟨old, x, _ | _⟩ | old <;>
    simp only [cvSignal]
  case loadWord | spin.load => split <;> exact h.same rfl rfl trivial
  case spin.cas =>
    split
    · next hw =>
        have hother := halone _ (Or.inr (hw ▸ hok.2))
        split
        · next hnil =>
            refine h.take (t := t) hw hok.2 rfl rfl hother fun htells => ?_
            simp only [Pc.CvKnows, Function.update_self]
            refine ⟨?_, fun _ => hnil⟩
            rw [hnil] at htells ⊢
            split
            · simp [Tells]
            · exact htells
        · next first rest hcons =>
            split
            · next hb =>
                refine h.take (t := t) hw hok.2 rfl rfl hother fun htells => ?_
                simp only [Pc.CvKnows, Function.update_self]
                exact ⟨htells.mpr (by simp [hcons]), fun _ => by simp [hcons]⟩
            · next hb =>
                refine h.take (t := t) hw hok.2 rfl rfl hother fun htells => ?_
                simp only [Pc.CvKnows, Function.update_self]
                exact ⟨htells.mpr (by simp [hcons]), by simpa using hb, by simp [hcons]⟩
    · exact h.same rfl rfl trivial
  case removeFirst.load => exact h.same rfl rfl hk
  case removeFirst.cas =>
    obtain ⟨hold, hb, hhead⟩ := hk
    have hrole : (s.pc t).cvRole.addr = some l.pcv := by rw [hpc]; rfl
    split
    · split
      · refine hremove x _ hrole ⟨hold, fun hbr => ?_⟩
        simp [hb] at hbr
      · refine signalDone_cvKnown (fun q hq => hremove x q hrole hq) hold fun hbr => ?_
        simp [hb] at hbr
    · exact h.same rfl rfl ⟨hold, hb, hhead⟩
  case loop =>
    obtain ⟨hold, hhead⟩ := hk
    split
    · next hnone =>
        refine signalDone_cvKnown (fun q hq => h.same rfl rfl hq) hold fun hbr => ?_
        rw [hnone] at hhead
        simpa using (hhead hbr).symm
    · next x hx =>
        repeat' split
        · exact h.same rfl rfl ⟨hold, fun hbr => ((hhead hbr).symm.trans hx)⟩
        · next hbr _ => exact h.same rfl rfl ⟨hold, fun hb => (hbr hb).elim⟩
        · next hbr _ _ => exact h.same rfl rfl ⟨hold, fun hb => (hbr hb).elim⟩
        · next hbr _ _ => exact h.same rfl rfl ⟨hold, fun hb => (hbr hb).elim⟩
  case remove.load => exact h.same rfl rfl hk
  case remove.cas =>
    obtain ⟨hold, hhead⟩ := hk
    split
    · refine hremove x _ (by rw [hpc]; rfl) ⟨hold, fun hbr => ?_⟩
      obtain ⟨rest, hrest⟩ := List.head?_eq_some_iff.mp (hhead hbr)
      simp only [Function.update_self]
      rw [hrest]
      simp [dllNext]
    · exact h.same rfl rfl ⟨hold, hhead⟩
  case storeWord =>
    obtain ⟨htells, -⟩ := hk
    have hrole : (s.pc t).cvRole.addr = some l.pcv := by rw [hpc]; rfl
    split
    · exact h.update (t := t) rfl rfl (halone _ (Or.inl hrole)) htells.mpr (fun _ => htells) trivial
    · exact h.update (t := t) rfl rfl (halone _ (Or.inl hrole)) htells.mpr (fun _ => htells) trivial

variable {E : Env σ}

theorem muUnlockSlow_cv (m : Mode) (k : UnlockCont) (p : UnlockSlowPc T) :
    (muUnlockSlow E s t m k p).cv = s.cv := by
  have hunlock : ∀ s₁ : State T σ, (afterUnlock s₁ t k).cv = s₁.cv := by
    intro s₁
    cases k <;> rfl
  have hnext : ∀ (s₁ : State T σ) sc, (scanNext s₁ t m k sc).cv = s₁.cv := by
    intro s₁ sc
    unfold scanNext
    split <;> rfl
  have hwake : ∀ (s₁ : State T σ) l, (wakeNext s₁ t m k l).cv = s₁.cv := by
    intro s₁ l
    cases l <;> first | exact hunlock s₁ | rfl
  have hscan : ∀ sc, (scanStep E s t m k sc).cv = s.cv := by
    intro sc
    have hend : ∀ p, (scanStep.scanEnd E s t m k sc p).cv = s.cv := by
      intro p
      unfold scanStep.scanEnd
      split
      · rfl
      · exact hnext ..
    unfold scanStep
    repeat' split
    all_goals first | exact hend _ | rfl
  rcases p with _ | _ | _ | ⟨_, _ | _⟩ | _ | ⟨_, _, _ | _⟩ | ⟨_, _ | _⟩ | ⟨_, _ | _⟩ | _ | _ <;>
    simp only [muUnlockSlow] <;> repeat' split
  all_goals
    first
    | rfl
    | exact hunlock _
    | exact hnext ..
    | exact hscan _
    | exact hwake ..

/-- Only waits on condition variables and signallers change a condition variable. -/
theorem step_cv {a : Act σ} (hs : step E t a s = some s') :
    (s'.cv = s.cv ∧ (s.pc t).cvRole = .no) ∨
    (∃ l p ch, s.pc t = .cvWait l p ∧ cvWaitWithDeadline s t l ch p = some s') ∨
    (∃ l p, s.pc t = .signal l p ∧ s' = cvSignal s t l p) ∨ (s.pc t).op = .debug ∨ a = .post := by
  cases a with
  | post => exact Or.inr (Or.inr (Or.inr (Or.inr rfl)))
  | call c =>
      simp only [step] at hs
      split at hs
      · next held hpc =>
          refine Or.inl ⟨?_, by rw [hpc]; rfl⟩
          cases c <;> simp only [callStep] at hs
          case muWait | cvWait =>
            cases held <;> cases hs
            rfl
          case signal | debug =>
            cases hs
            rfl
          all_goals
            split at hs <;> cases hs
            rfl
      · cases hs
  | step ch =>
      have hlock : ∀ (s₁ : State T σ) (m : Mode) (k : LockCont),
          (afterLock s₁ t m k).cv = s₁.cv := by
        intro s₁ m k
        cases k <;> rfl
      simp only [step] at hs
      cases hpc : s.pc t <;> simp only [hpc, Option.some.injEq] at hs
      case client | panicked => cases hs
      case cvWait l p => exact Or.inr (Or.inl ⟨l, p, ch, rfl, hs⟩)
      case signal l p => exact Or.inr (Or.inr (Or.inl ⟨l, p, rfl, hs.symm⟩))
      case debug l p => exact Or.inr (Or.inr (Or.inr (Or.inl rfl)))
      all_goals refine Or.inl ⟨?_, rfl⟩
      case lock m b k p =>
        subst hs
        cases p <;> simp only [muLock] <;> repeat' split
        all_goals first | rfl | exact hlock ..
      case lockSlow l k p =>
        rcases p with _ | _ | _ | _ | ⟨_ | _⟩ | _ | _ <;> simp only [muLockSlow, semP] at hs <;>
          repeat' split at hs
        all_goals
          cases hs
          try first | rfl | exact hlock ..
      case unlock kind k p =>
        have hunlock : ∀ s₁ : State T σ, (afterUnlock s₁ t k).cv = s₁.cv := by
          intro s₁
          cases k <;> rfl
        subst hs
        cases p <;> simp only [muUnlock] <;> repeat' split
        all_goals first | rfl | exact hunlock _
      case unlockSlow => exact hs ▸ muUnlockSlow_cv ..
      case muWait l p =>
        rcases p with _ | _ | _ | _ | ⟨_ | _⟩ | ⟨_ | _⟩ | _ | _ | _ | _ | _ | _ | _ | _ |
            ⟨_, _ | _⟩ | _ | _ | _ | _ <;> simp only [muWaitWithDeadline] at hs
        case sem =>
          cases ch <;> simp only [semWaitWithCancel, semP] at hs <;> split at hs <;> cases hs
          all_goals rfl
        all_goals repeat' split at hs
        all_goals
          cases hs
          rfl
      case wakeWaiters l p =>
        have hstart : ∀ s₁ : State T σ, (wakeStart s₁ t l).cv = s₁.cv := by
          intro s₁
          unfold wakeStart
          split <;> rfl
        subst hs
        rcases p with _ | _ | ⟨_, _ | _⟩ | _ | x <;> simp only [wakeWaiters] <;> repeat' split
        all_goals first | rfl | exact hstart _

/-! ## Runs -/

/-- In the protocol, the spinlock of a condition variable is taken only together
with a change of its word. -/
theorem AStep.cv_no {C : WaitCondition → Prop} {a a' : AState T σ} (hs : AStep E C t a a')
    (hcvw : a'.cvw = a.cvw) (hno : (a.th t).cv = .no) : (a'.th t).cv = .no := by
  cases hs with
  | cvEnqueue c w _ _ hfree hw =>
      have := congrFun hcvw c
      simp only [AState.setTh, AState.setLoc, AState.setCvw, Function.update_self] at this
      rw [← this, hw] at hfree
      cases hfree
  | cvTake c r w _ hfree hw =>
      have := congrFun hcvw c
      simp only [AState.setTh, AState.setCvw, Function.update_self] at this
      rw [← this, hw] at hfree
      cases hfree
  | grab _ _ _ _ _ _ _ _ hp => cases hp <;> simpa using hno
  | retake _ _ _ hp => cases hp <;> simpa using hno
  | next hp => cases hp <;> simpa using hno
  | cvRelease => simp
  | _ => simpa using hno

variable [Fintype T] {C : WaitCondition → Prop} {loc loc' : T → Loc T}

omit [DecidableEq T] in
theorem Good.cvAlone (h : Good E C s loc) (t : T) : CvAlone t s := by
  intro c hc u hut hu
  rcases hc with hc | hc
  · exact hut ((h.inv.cv.spin c).unique u t hu hc)
  · exact (h.inv.cv.spin c).not_of_clear hc hu

omit [DecidableEq T] in
theorem Good.cvHeld (h : Good E C s loc) (t : T) : CvHeld t s := by
  intro c hc hfree
  exact (h.inv.cv.spin c).not_of_clear hfree hc

theorem CvKnown.step {a : Act σ} (h : CvKnown s) (hg : Good E C s loc)
    (hs : AStep E C t (s.abs loc) (s'.abs loc')) (hop : (s.pc t).op ≠ .debug)
    (hstep : step E t a s = some s') : CvKnown s' := by
  rcases step_cv hstep with ⟨hcv, hno⟩ | ⟨l, p, ch, hpc, hs'⟩ | ⟨l, p, hpc, rfl⟩ | hdbg | rfl
  · have hno' : (s'.pc t).cvRole = .no := by
      refine hs.cv_no ?_ hno
      funext c
      simp [State.abs, hcv]
    have hupd : s'.pc = Function.update s.pc t (s'.pc t) := by
      funext u
      rcases eq_or_ne u t with rfl | hu
      · rw [Function.update_self]
      · rw [Function.update_of_ne hu, step_pc_of_ne hu hstep]
    exact h.same hcv hupd (Pc.cvKnows_of_no hno' _)
  · exact cvWaitWithDeadline_cvKnown h (hg.cvAlone t) (hg.cvHeld t) hpc (hg.pcs t).ok hs'
  · exact cvSignal_cvKnown h (hg.cvAlone t) (hg.cvHeld t) hpc (hg.pcs t).ok
  · exact (hop hdbg).elim
  · cases hstep
    exact ⟨h.set, h.tells, h.pcs⟩

omit [DecidableEq T] [Fintype T] in
theorem cvKnown_initial (x : σ) : CvKnown (initial x : State T σ) where
  set _ h := (h rfl).elim
  tells _ _ := by simp [Tells, initial]
  pcs _ := trivial

theorem Reachable.cvKnown {y : σ} (h : Reachable E Regular y s) : CvKnown s := by
  refine h.invariant (I := CvKnown) (cvKnown_initial y) ?_
  intro t a s₁ s₂ h₁ hk hP hs
  obtain ⟨loc, loc', hg, -, hstep⟩ := h₁.step_of_regular hP hs
  have hop := (h₁.good_of_noDebug (C := fun _ => True) fun _ a _ hP =>
    ⟨a.condIn_true, hP.1, hP.2⟩).2
  exact hk.step hg hstep (hop t) hs

end

end Nsync.Mu
