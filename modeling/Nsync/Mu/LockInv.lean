import Nsync.Mu.Shares

/-!
# The lock invariant

Every step of the protocol keeps the accounting of shares and of the spinlock.
-/

namespace Nsync.Mu

open Nsync.Lib

variable {T σ : Type}

/-- Facts that relate the roles of one thread. -/
structure Abs.WF (b : Abs T) : Prop where
  hold : ∀ old, b.spin = .hold old → b.lock = some .writer ∧ b.trying = true
  fin : ∀ r, b.spin = .fin r → b.region = true ∧ b.lock = if r.late then some .writer else none
  region : b.region = true → b.spin ≠ .no ∨ b.lock = some .writer
  mine : b.phase = .muMine → ∃ old, b.spin = .hold old
  cvMine : ∀ c, b.phase = .cvNew c ∨ b.phase = .cvMine c → b.cv.addr = some c
  long : b.longWaiter = true → b.phase = .redo ∨ b.phase = .slowWait ∨ b.spin = .ins

variable [DecidableEq T] {E : Env σ} {C : WaitCondition → Prop} {t u : T} {a a' : AState T σ}

theorem Pick.th_of_ne (hs : Pick E C t a a') (hu : u ≠ t) : a'.th u = a.th u := by
  cases hs <;> simp [hu]

/-- A step of `t` leaves the roles of the other threads alone. -/
theorem AStep.th_of_ne (hs : AStep E C t a a') (hu : u ≠ t) : a'.th u = a.th u := by
  cases hs with
  | grab m testing _ _ _ _ _ _ hp => simpa [hu] using hp.th_of_ne hu
  | retake _ _ _ hp => simpa [hu] using hp.th_of_ne hu
  | next hp => exact hp.th_of_ne hu
  | _ => simp [hu]

theorem Pick.wf (hs : Pick E C t a a') (h : (a.th t).WF) : (a'.th t).WF := by
  obtain ⟨h1, h2, h3, h4, h5, h6⟩ := h
  cases hs with
  | pick => exact ⟨h1, h2, h3, h4, h5, h6⟩
  | giveBack r hr hs hq hf =>
      have hlock := hf.lock
      simp only [AState.setTh, AState.giveBack, Function.update_self] at hlock ⊢
      constructor <;> first | exact h5 | simp_all

theorem AStep.wf_self (hs : AStep E C t a a') (h : (a.th t).WF) : (a'.th t).WF := by
  have hwf := h
  obtain ⟨h1, h2, h3, h4, h5, h6⟩ := h
  cases hs with
  | own p tr lw w hc hmine hnew hcond htype hC htr hlw hphase hins =>
      simp only [AState.setTh, AState.setWtr, Function.update_self]
      exact ⟨fun old ho => ⟨(h1 old ho).1, htr (h1 old ho).2⟩, h2, h3, hmine, hnew,
        fun hl => (hphase hl).imp id Or.inl⟩
  | grab m testing hl hs hr hspin hv ht hp =>
      refine hp.wf ?_
      simp only [AState.grab, AState.setTh, AState.setV, Function.update_self]
      constructor <;> first | exact h5 | simp_all
  | retake hs hr hspin hp =>
      refine hp.wf ?_
      simp only [AState.retakeSpin, AState.setTh, AState.setV, Function.update_self]
      constructor <;> first | exact h5 | simp_all
  | next hp => exact hp.wf hwf
  | stutter | dequeue | wake | setWriterWaiting | select | cvWake | mutate => exact hwf
  | _ =>
      simp only [AState.setTh, AState.setWtr, AState.setLoc, AState.gain, AState.setV,
        AState.setDeq, AState.setCvw, AState.move, Function.update_self]
      constructor <;> first | exact h5 | simp_all

theorem AStep.wf (hs : AStep E C t a a') (h : ∀ u, (a.th u).WF) (u : T) : (a'.th u).WF := by
  by_cases hu : u = t
  · subst hu
    exact hs.wf_self (h u)
  · rw [hs.th_of_ne hu]
    exact h u

/-! ## The invariant -/

/-- The word, the shares and the spinlock. -/
structure LockInv [Fintype T] (a : AState T σ) : Prop where
  wf : ∀ u, (a.th u).WF
  shares : Shares a.v fun u => (a.th u).lock
  spin : Owned a.v.spin fun u => (a.th u).spin ≠ .no
  hold : ∀ u old, (a.th u).spin = .hold old → a.v = (view old).tryAcquire ∧
    (view old).wlock = false ∧ (view old).readers = 0 ∧ (view old).spin = false
  dbg : ∀ u w, (a.th u).spin = .dbg w → a.v = (view w).takeSpin ∧ (view w).spin = false

/-- A step of `t` leaves the mutex word alone while another thread is going to
overwrite it at the end of its debugging output. -/
def QuietStep (t : T) (a a' : AState T σ) : Prop :=
  ∀ u w, u ≠ t → (a.th u).spin = .dbg w → a'.v = a.v

namespace LockInv

variable [Fintype T]

theorem no_spin (h : LockInv a) (hs : a.v.spin = false) (u : T) : (a.th u).spin = .no := by
  by_contra hu
  exact h.spin.not_of_clear hs hu

theorem no_spin_of (h : LockInv a) (ht : (a.th t).spin ≠ .no) (hu : u ≠ t) :
    (a.th u).spin = .no := by
  by_contra hn
  exact hu (h.spin.unique u t hn ht)

omit [DecidableEq T] in
/-- A thread that holds both locks after a timeout is the only holder. -/
theorem eq_of_hold (h : LockInv a) {old : Word} {m : Mode} (hu : (a.th u).spin = .hold old)
    (ht : (a.th t).lock = some m) : t = u :=
  h.shares.eq_of_writer ((h.wf u).hold old hu).1 ht

theorem step_of (h : LockInv a) (hs : AStep E C t a a') (hq : QuietStep t a a')
    (hsh : Shares a'.v fun u => (a'.th u).lock)
    (hsp : Owned a'.v.spin fun u => (a'.th u).spin ≠ .no)
    (hhold : ∀ old, (a'.th t).spin = .hold old → a'.v = (view old).tryAcquire ∧
      (view old).wlock = false ∧ (view old).readers = 0 ∧ (view old).spin = false)
    (hdbg : ∀ w, (a'.th t).spin = .dbg w → a'.v = (view w).takeSpin ∧ (view w).spin = false)
    (hother : ∀ u old, u ≠ t → (a.th u).spin = .hold old → a'.v = a.v) : LockInv a' where
  wf := hs.wf h.wf
  shares := hsh
  spin := hsp
  hold u old hu := by
    by_cases hut : u = t
    · subst hut
      exact hhold old hu
    · rw [hs.th_of_ne hut] at hu
      rw [hother u old hut hu]
      exact h.hold u old hu
  dbg u w hu := by
    by_cases hut : u = t
    · subst hut
      exact hdbg w hu
    · rw [hs.th_of_ne hut] at hu
      rw [hq u w hut hu]
      exact h.dbg u w hu

/-! A step of `t` changes the word only when no other thread holds both locks
after a timeout. -/

theorem hold_of_free (h : LockInv a) (hv : a.v.spin = false) {old : Word}
    (hu : (a.th u).spin = .hold old) {p : Prop} : p := by
  rw [h.no_spin hv u] at hu
  cases hu

theorem hold_of_spin (h : LockInv a) (ht : (a.th t).spin ≠ .no) {old : Word} (hut : u ≠ t)
    (hu : (a.th u).spin = .hold old) {p : Prop} : p := by
  rw [h.no_spin_of ht hut] at hu
  cases hu

omit [DecidableEq T] in
theorem hold_of_share (h : LockInv a) {m : Mode} (ht : (a.th t).lock = some m) {old : Word}
    (hut : u ≠ t) (hu : (a.th u).spin = .hold old) {p : Prop} : p :=
  (hut (h.eq_of_hold hu ht).symm).elim

omit [DecidableEq T] in
theorem hold_of_wlock (h : LockInv a) (hv : a.v.wlock = false) {old : Word}
    (hu : (a.th u).spin = .hold old) {p : Prop} : p := by
  have hset := h.shares.write.set_of ((h.wf u).hold old hu).1
  rw [hv] at hset
  cases hset

/-! How the accounting follows a step of `t`. -/

theorem shares_congr (h : LockInv a) (hs : AStep E C t a a') (hw : a'.v.wlock = a.v.wlock)
    (hr : a'.v.readers = a.v.readers) (ht : (a'.th t).lock = (a.th t).lock) :
    Shares a'.v fun u => (a'.th u).lock := by
  refine h.shares.congr hw hr fun u => ?_
  by_cases hu : u = t
  · subst hu
    exact ht
  · rw [hs.th_of_ne hu]

theorem spin_congr (h : LockInv a) (hs : AStep E C t a a') (hv : a'.v.spin = a.v.spin)
    (ht : (a'.th t).spin = .no ↔ (a.th t).spin = .no) :
    Owned a'.v.spin fun u => (a'.th u).spin ≠ .no := by
  refine h.spin.congr hv fun u => not_congr ?_
  by_cases hu : u = t
  · subst hu
    exact ht
  · rw [hs.th_of_ne hu]

theorem spin_take (h : LockInv a) (hs : AStep E C t a a') (hf : a.v.spin = false)
    (hv : a'.v.spin = true) (ht : (a'.th t).spin ≠ .no) :
    Owned a'.v.spin fun u => (a'.th u).spin ≠ .no :=
  h.spin.take hf hv ht fun u hu => by rw [hs.th_of_ne hu]

theorem spin_drop (h : LockInv a) (hs : AStep E C t a a') (ht : (a.th t).spin ≠ .no)
    (hv : a'.v.spin = false) (ht' : (a'.th t).spin = .no) :
    Owned a'.v.spin fun u => (a'.th u).spin ≠ .no :=
  h.spin.drop ht hv (by simp [ht']) fun u hu => by rw [hs.th_of_ne hu]

/-- A step that leaves the word and the roles in locking alone. -/
theorem frame (h : LockInv a) (hs : AStep E C t a a') (hv : a'.v = a.v)
    (hl : (a'.th t).lock = (a.th t).lock) (hsp : (a'.th t).spin = (a.th t).spin) : LockInv a' := by
  refine h.step_of hs (fun _ _ _ _ => hv) (h.shares_congr hs (by rw [hv]) (by rw [hv]) hl)
    (h.spin_congr hs (by rw [hv]) (by rw [hsp])) ?_ ?_ fun _ _ _ _ => hv
  · intro old ho
    rw [hsp] at ho
    rw [hv]
    exact h.hold t old ho
  · intro w hw
    rw [hsp] at hw
    rw [hv]
    exact h.dbg t w hw

/-- Only the spinlock changes hands. -/
theorem step_spin (h : LockInv a) (hs : AStep E C t a a') (hq : QuietStep t a a')
    (hw : a'.v.wlock = a.v.wlock) (hr : a'.v.readers = a.v.readers)
    (hl : (a'.th t).lock = (a.th t).lock)
    (hsp : Owned a'.v.spin fun u => (a'.th u).spin ≠ .no)
    (hhold : ∀ old, (a'.th t).spin ≠ .hold old) (hdbg : ∀ w, (a'.th t).spin ≠ .dbg w)
    (hother : ∀ u old, u ≠ t → (a.th u).spin = .hold old → a'.v = a.v) : LockInv a' :=
  h.step_of hs hq (h.shares_congr hs hw hr hl) hsp (fun old ho => (hhold old ho).elim)
    (fun w hw => (hdbg w hw).elim) hother

end LockInv

theorem Pick.v_eq (hp : Pick E C t a a') : a'.v = a.v := by
  cases hp <;> rfl

theorem Pick.lock_eq (hp : Pick E C t a a') : (a'.th t).lock = (a.th t).lock := by
  cases hp <;> simp

theorem Pick.spin_cases (hp : Pick E C t a a') :
    (a.th t).spin = .plain ∧ ((a'.th t).spin = .plain ∨ ∃ r, (a'.th t).spin = .fin r) := by
  cases hp with
  | pick hr hs => exact ⟨hs, Or.inl hs⟩
  | giveBack r hr hs hq hf => exact ⟨hs, Or.inr ⟨r, by simp⟩⟩

theorem Pick.spin_ne (hp : Pick E C t a a') : (a'.th t).spin ≠ .no ∧
    (∀ old, (a'.th t).spin ≠ .hold old) ∧ ∀ w, (a'.th t).spin ≠ .dbg w := by
  obtain ⟨-, h | ⟨r, h⟩⟩ := hp.spin_cases <;> simp [h]

namespace LockInv

variable [Fintype T]

theorem step_grab (h : LockInv a) {m : Mode} {testing : Bool} (hl : (a.th t).lock = some m)
    (hspin : a.v.spin = false) (hv : ¬ a.v.NoWakeup) (hp : Pick E C t (a.grab t m testing) a')
    (hs : AStep E C t a a') (hq : QuietStep t a a') : LockInv a' := by
  obtain ⟨hsn, hsh, hsd⟩ := hp.spin_ne
  have hlock : (a'.th t).lock = if testing then some .writer else none := by
    rw [hp.lock_eq]
    simp
  have hne : ∀ u, u ≠ t → (a'.th u).lock = (a.th u).lock := by
    intro u hu
    rw [hs.th_of_ne hu]
  have hv' : a'.v = a.v.grab m testing := by
    rw [hp.v_eq]
    rfl
  refine h.step_of hs hq ?_ (h.spin_take hs hspin (by rw [hv']; rfl) hsn)
    (fun old ho => (hsh old ho).elim) (fun w hw => (hsd w hw).elim)
    fun u old _ hu => h.hold_of_free hspin hu
  cases testing with
  | false => exact h.shares.drop hl (by rw [hv']; rfl) (by rw [hv']; rfl) hlock hne
  | true =>
      have hn : a.v.readers ≤ 1 := by
        by_contra hn
        exact hv (Or.inr (Or.inr (Or.inl (by omega))))
      refine h.shares.convert hl hn (by rw [hv']; rfl) ?_ hlock hne
      rw [hv']
      cases m with
      | writer => exact h.shares.excl (h.shares.hasShare hl)
      | reader =>
          change a.v.readers - 1 = 0
          omega

theorem step_final (h : LockInv a) {r : Release T} (hspin : (a.th t).spin = .fin r)
    (hs : AStep E C t a a')
    (hv : a'.v = a.v.final r.late r.setWriterWaiting r.setAllFalse r.noneLeft r.wake.isEmpty)
    (ht : a'.th t = { a.th t with lock := none, spin := .no, region := false })
    (hq : QuietStep t a a') : LockInv a' := by
  have hsn : (a.th t).spin ≠ .no := by simp [hspin]
  have hlock := ((h.wf t).fin r hspin).2
  refine h.step_of hs hq ?_ (h.spin_drop hs hsn (by rw [hv]; rfl) (by rw [ht]))
    (by simp [ht]) (by simp [ht]) fun u old hu ho => h.hold_of_spin hsn hu ho
  cases hl : r.late with
  | false =>
      rw [hl] at hv
      exact h.shares_congr hs (by rw [hv]; rfl) (by rw [hv]; rfl) (by simp [ht, hlock, hl])
  | true =>
      rw [hl] at hv
      refine h.shares.drop (t := t) (m := .writer) (by simp [hlock, hl]) (by rw [hv]; rfl)
        (by rw [hv]; rfl) (by rw [ht]) fun u hu => by rw [hs.th_of_ne hu]

theorem step_tryDone (h : LockInv a) {m : Mode} {old : Word} (hspin : (a.th t).spin = .hold old)
    (hs : AStep E C t a a') (hv : a'.v = (view old).addShare m)
    (ht : (a'.th t).lock = some m ∧ (a'.th t).spin = .no) (hq : QuietStep t a a') :
    LockInv a' := by
  have hsn : (a.th t).spin ≠ .no := by simp [hspin]
  obtain ⟨hold, hw, hn, hsp⟩ := h.hold t old hspin
  have hlk : (a.th t).lock = some .writer := ((h.wf t).hold old hspin).1
  refine h.step_of hs hq ?_ (h.spin_drop hs hsn ?_ ht.2) (by simp [ht.2]) (by simp [ht.2])
    fun u old' hu ho => h.hold_of_spin hsn hu ho
  · -- the write lock is dropped and a share in mode `m` taken
    have hdrop : Shares (view old) (Function.update (fun u => (a.th u).lock) t none) := by
      refine h.shares.drop hlk (by simp [hw, View.dropShare]) ?_ (by simp)
        (by intro u hu; simp [hu])
      rw [hold]
      rfl
    refine hdrop.add (t := t) (by simp) hw (fun _ => hn) (by rw [hv]) (by rw [hv]) ht.1 ?_
    intro u hu
    rw [hs.th_of_ne hu]
    simp [hu]
  · rw [hv]
    cases m <;> exact hsp

/-- Every step keeps the invariant. -/
theorem step (h : LockInv a) (hs : AStep E C t a a') (hq : QuietStep t a a') : LockInv a' := by
  have hne : ∀ u, u ≠ t → (a'.th u).lock = (a.th u).lock := by
    intro u hu
    rw [hs.th_of_ne hu]
  have hs' := hs
  cases hs' with
  | stutter => exact h
  | own | dequeue | wake | removeSelf | cvEnqueue | cvTake | cvRelease | cvRemove | select | cvWake
  | mutate => exact h.frame hs rfl (by simp) (by simp)
  | acquire m clear hl hsp hp hv htype =>
      have hw : a.v.wlock = false := by cases m <;> exact hv.1
      refine h.step_of hs hq (h.shares.add (m := m) hl hw ?_ ?_ ?_ (by simp) hne)
        (h.spin_congr hs ?_ (by simp)) (by simp [hsp]) (by simp [hsp])
        fun u old _ ho => h.hold_of_wlock hw ho
      · rintro rfl
        exact hv.2.1
      all_goals cases m <;> rfl
  | enqueue m clear hl hsp hp hv hspin htype =>
      exact h.step_spin hs hq rfl rfl (by simp) (h.spin_take hs hspin rfl (by simp)) (by simp)
        (by simp) fun u old _ ho => h.hold_of_free hspin ho
  | insert hsp hp hcond =>
      exact h.step_spin hs hq rfl rfl (by simp) (h.spin_congr hs rfl (by simp [hsp])) (by simp)
        (by simp) fun _ _ _ _ => rfl
  | releaseSpin hsp hr =>
      have hsn : (a.th t).spin ≠ .no := by simp [hsp]
      exact h.step_spin hs hq rfl rfl (by simp) (h.spin_drop hs hsn rfl (by simp)) (by simp)
        (by simp) fun u old hu ho => h.hold_of_spin hsn hu ho
  | release m clearAllFalse hl hsp hr hv =>
      refine h.step_of hs hq (h.shares.drop hl ?_ ?_ (by simp) hne) (h.spin_congr hs ?_ (by simp))
        (by simp [hsp]) (by simp [hsp]) fun u old hu ho => h.hold_of_share hl hu ho
      all_goals cases m <;> rfl
  | grab m testing hl hsp hr hspin hv ht hp => exact h.step_grab hl hspin hv hp hs hq
  | retake hsp hr hspin hp =>
      have hv : a'.v = a.v.takeSpin := hp.v_eq
      obtain ⟨hsn, hsh, hsd⟩ := hp.spin_ne
      refine h.step_spin hs hq (by rw [hv]; rfl) (by rw [hv]; rfl) ?_
        (h.spin_take hs hspin (by rw [hv]; rfl) hsn) hsh hsd
        fun u old _ ho => h.hold_of_free hspin ho
      rw [hp.lock_eq]
      simp
  | next hp =>
      obtain ⟨hsn, hsh, hsd⟩ := hp.spin_ne
      have hsp : (a.th t).spin ≠ .no := by simp [hp.spin_cases.1]
      exact h.step_spin hs hq (by rw [hp.v_eq]) (by rw [hp.v_eq]) hp.lock_eq
        (h.spin_congr hs (by rw [hp.v_eq]) (by simp [hsn, hsp])) hsh hsd fun _ _ _ _ => hp.v_eq
  | final r hsp => exact h.step_final hsp hs rfl (by simp) hq
  | muEnqueue rc hp hsp hr hspin =>
      exact h.step_spin hs hq rfl rfl (by simp) (h.spin_take hs hspin rfl (by simp)) (by simp)
        (by simp) fun u old _ ho => h.hold_of_free hspin ho
  | muRelease m hl hsp hr =>
      have hsn : (a.th t).spin ≠ .no := by simp [hsp]
      exact h.step_of hs hq (h.shares.drop hl rfl rfl (by simp) hne)
        (h.spin_drop hs hsn rfl (by simp)) (by simp) (by simp)
        fun u old hu ho => h.hold_of_spin hsn hu ho
  | tryAcquire old hl hsp htr hv hw hn hlw hspin =>
      refine h.step_of hs hq (h.shares.add (m := .writer) hl hw (fun _ => hn) rfl rfl (by simp) hne)
        (h.spin_take hs hspin rfl (by simp)) ?_ (by simp)
        fun u old _ ho => h.hold_of_free hspin ho
      intro old' ho
      simp only [AState.setTh, Function.update_self, SpinRole.hold.injEq] at ho
      subst ho
      rw [← hv]
      exact ⟨rfl, hw, hn, hspin⟩
  | setWriterWaiting htr hspin =>
      have hno := h.no_spin hspin t
      exact h.step_spin hs hq rfl rfl (by simp) (h.spin_congr hs rfl (by simp))
        (by simp [hno]) (by simp [hno]) fun u old _ ho => h.hold_of_free hspin ho
  | tryDone m old hsp hp hr => exact h.step_tryDone hsp hs rfl (by simp) hq
  | tryFail old hsp hp hr =>
      have hsn : (a.th t).spin ≠ .no := by simp [hsp]
      obtain ⟨hold, hw, hn, hspin⟩ := h.hold t old hsp
      refine h.step_of hs hq (h.shares.drop ((h.wf t).hold old hsp).1 hw ?_ (by simp) hne)
        (h.spin_drop hs hsn hspin (by simp)) (by simp) (by simp)
        fun u old hu ho => h.hold_of_spin hsn hu ho
      rw [hold]
      rfl
  | transfer xs b hsp hr hspin hheld hxs hb =>
      exact h.step_spin hs hq rfl rfl (by simp) (h.spin_take hs hspin rfl (by simp)) (by simp)
        (by simp) fun u old _ ho => h.hold_of_free hspin ho
  | transferRelease b hsp hr =>
      have hsn : (a.th t).spin ≠ .no := by simp [hsp]
      exact h.step_spin hs hq rfl rfl (by simp) (h.spin_drop hs hsn rfl (by simp)) (by simp)
        (by simp) fun u old hu ho => h.hold_of_spin hsn hu ho
  | dbgTake w hsp hr hv hspin =>
      refine h.step_of hs hq (h.shares_congr hs rfl rfl (by simp))
        (h.spin_take hs hspin rfl (by simp)) (by simp) ?_
        fun u old _ ho => h.hold_of_free hspin ho
      intro w' hw
      simp only [AState.setTh, Function.update_self, SpinRole.dbg.injEq] at hw
      subst hw
      rw [← hv]
      exact ⟨rfl, hspin⟩
  | dbgStore w hsp hr =>
      have hsn : (a.th t).spin ≠ .no := by simp [hsp]
      obtain ⟨hv, hspin⟩ := h.dbg t w hsp
      refine h.step_spin hs hq ?_ ?_ (by simp) (h.spin_drop hs hsn hspin (by simp)) (by simp)
        (by simp) fun u old hu ho => h.hold_of_spin hsn hu ho
      all_goals rw [hv]; rfl

end LockInv

end Nsync.Mu
