import Nsync.Mu.RefineLock

/-!
# Releasing refines the protocol

`nsync_mu_unlock`, `nsync_mu_runlock`, `nsync_mu_unlock_without_wakeup` and the
paths of `nsync_mu_unlock_slow_` that wake nobody.
-/

namespace Nsync.Mu

open Nsync.Lib

variable {T σ : Type} [DecidableEq T] [Fintype T] {E : Env σ} {C : WaitCondition → Prop}
  {s : State T σ} {loc : T → Loc T} {t : T}

/-- Where a thread goes on after it has released. -/
def UnlockCont.pc : UnlockCont → Pc T
  | .ret => .client none
  | .muWait l => .muWait l .waitLoad
  | .cvWait l => .cvWait l .waitLoad

omit [Fintype T] in
theorem afterUnlock_eq (s : State T σ) (t : T) (k : UnlockCont) :
    afterUnlock s t k = s.setPc t k.pc := by
  cases k <;> rfl

section

variable {m : Mode} {k : UnlockCont} {w : Waiter}

omit [DecidableEq T] [Fintype T] in
theorem UnlockCont.Ok.abs_pc (hk : k.Ok C m w) :
    (k.pc : Pc T).abs = ⟨none, .no, k.phase, false, false, false, .no⟩ := by
  cases k with
  | ret => rfl
  | muWait l =>
      obtain ⟨-, -, -, hl, -⟩ := hk
      simp [UnlockCont.pc, Pc.abs, Pc.lockRole, Pc.spinRole, Pc.phase, UnlockCont.phase, Pc.region,
        Pc.trying, Pc.longWaiter, Pc.cvRole, hl]
  | cvWait l =>
      obtain ⟨-, -, hl, -⟩ := hk
      simp [UnlockCont.pc, Pc.abs, Pc.lockRole, Pc.spinRole, Pc.phase, UnlockCont.phase, Pc.region,
        Pc.trying, Pc.longWaiter, Pc.cvRole, hl]

omit [DecidableEq T] [Fintype T] in
theorem UnlockCont.Ok.ok_pc (hk : k.Ok C m w) : (k.pc : Pc T).Ok C w := by
  cases k with
  | ret => trivial
  | muWait l =>
      obtain ⟨he, hl, hC, hlock, hw, hc⟩ := hk
      exact ⟨he.trans hl.symm, hC, fun _ => ⟨hw.trans hl.symm, hc⟩⟩
  | cvWait l =>
      obtain ⟨he, hl, -, hw, hc⟩ := hk
      exact ⟨he.trans hl.symm, hw.trans hl.symm, hc⟩

omit [DecidableEq T] [Fintype T] in
theorem UnlockCont.lists_pc : (k.pc : Pc T).lists = ([], [], [], []) := by
  cases k <;> rfl

omit [DecidableEq T] [Fintype T] in
theorem UnlockCont.target_pc : (k.pc : Pc T).target = none := by
  cases k <;> rfl

omit [DecidableEq T] [Fintype T] in
theorem UnlockCont.scan_pc : (k.pc : Pc T).scan? = none := by
  cases k <;> rfl

/-- A CAS that gives up the thread's share and wakes nobody. -/
theorem Good.release (h : Good E C s loc) (b : Bool) {w' : Word}
    (habs : (s.pc t).abs = ⟨some m, .no, k.phase, false, false, false, .no⟩)
    (hlists : (s.pc t).lists = ([], [], [], [])) (hv : (view s.word).Unneeded m b)
    (hw : view w' = (view s.word).releaseShare m b) (hk : k.Ok C m (s.wtr t)) :
    Simulates E C t s loc (afterUnlock (s.setWord w') t k) := by
  rw [afterUnlock_eq]
  have hstep := AStep.release (E := E) (C := C) (t := t) (a := s.abs loc) m b
    (congrArg Abs.lock habs) (congrArg Abs.spin habs) (congrArg Abs.region habs) hv
  refine h.simple loc (p := k.pc) rfl (UnlockCont.lists_pc.trans hlists.symm) rfl (fun _ => rfl)
    rfl (fun _ => Or.inl rfl)
    (hstep.of_eq (AState.ext hw (State.abs_th rfl ?_) rfl rfl rfl rfl rfl rfl))
    (PcOk.of_ok (p := k.pc) (by simp [State.setPc]) hk.ok_pc UnlockCont.target_pc
      UnlockCont.scan_pc)
  rw [hk.abs_pc]
  change _ = { (s.pc t).abs with lock := none }
  rw [habs]

end

/-! ## The fast paths -/

theorem View.HasShare.not_panics {kind : UnlockKind} {old : Word}
    (h : (view old).HasShare kind.mode) (hex : (view old).wlock = true → (view old).readers = 0) :
    ¬ kind.panics old := by
  have hnew := view_newWord h
  have key : kind.mode = .writer →
      kind.newWord old &&& (muRlockField ||| muWlock) = 0#32 := by
    intro hm
    rw [hm] at h hnew
    rw [and_or_eq_zero, and_muRlockField, and_muWlock, hnew]
    exact ⟨hex h, rfl⟩
  cases kind with
  | unlock => exact not_not_intro (key rfl)
  | withoutWakeup => exact not_not_intro (key rfl)
  | runlock =>
      intro hp
      have hpos : 0 < (view old).readers := h
      simp only [UnlockKind.panics, and_or_eq_zero, and_muWlock, and_muRlockField] at hp
      have hr : (view (old ^^^ muWlock)).readers = (view old).readers := by
        have : muWlock >>> 8 = 0#32 := by decide
        simp [view, BitVec.ushiftRight_xor_distrib, this]
      omega

theorem unneeded_of_not_goesSlow {kind : UnlockKind} {old : Word}
    (h : (view old).HasShare kind.mode) (hs : ¬ kind.goesSlow old) :
    (view old).Unneeded kind.mode kind.clearsAllFalse := by
  cases kind with
  | unlock =>
      rw [UnlockKind.goesSlow, waiting_noDesig] at hs
      simp only [View.Unneeded]
      grind
  | runlock =>
      have hpos : 0 < (view old).readers := h
      rw [UnlockKind.goesSlow, waiting_noDesig, lastReader_noAllFalse] at hs
      simp only [View.Unneeded, UnlockKind.mode]
      grind
  | withoutWakeup =>
      rw [UnlockKind.goesSlow, waiting_noDesig_noAllFalse] at hs
      simp only [View.Unneeded, UnlockKind.mode, UnlockKind.clearsAllFalse]
      grind

/-- The slow path lets go without a wake-up only where none is needed. -/
theorem unneeded_of_noWakeup {m : Mode} {old : Word} (h : (view old).HasShare m)
    (hex : (view old).wlock = true → (view old).readers = 0) (hn : (view old).NoWakeup) :
    (view old).Unneeded m (m == .writer) := by
  rcases hn with hn | hn | hn | hn
  · exact Or.inl hn
  · exact Or.inr (Or.inl hn)
  all_goals
    cases m with
    | writer =>
        have := hex h
        omega
    | reader => exact Or.inr (Or.inr (Or.inl ⟨rfl, by tauto⟩))

theorem muUnlock_simulates (h : Good E C s loc) {kind : UnlockKind} {k : UnlockCont} {p : UnlockPc}
    (hpc : s.pc t = .unlock kind k p) : Simulates E C t s loc (muUnlock s t kind k p) := by
  obtain ⟨hk, hp⟩ : Pc.Ok C (s.wtr t) (.unlock kind k p) := hpc ▸ (h.pcs t).ok
  have habs : (s.pc t).abs = ⟨some kind.mode, .no, k.phase, false, false, false, .no⟩ := by
    rw [hpc]
    rfl
  have hlists : (s.pc t).lists = ([], [], [], []) := by
    rw [hpc]
    rfl
  have hshare : (view s.word).HasShare kind.mode :=
    h.inv.lock.shares.hasShare (t := t) (congrArg Abs.lock habs)
  cases p with
  | cas0 =>
      rw [muUnlock]
      split
      · next hz =>
          refine h.release false habs hlists (Or.inl ?_) ?_ hk
          · rw [hz]
            cases kind.mode <;> decide
          · rw [hz]
            cases kind.mode <;> decide
      · exact h.goto hpc rfl rfl ⟨hk, trivial⟩ rfl rfl
  | load =>
      rw [muUnlock]
      split
      · next hz => exact (View.HasShare.not_panics hshare h.inv.lock.shares.excl hz).elim
      · split
        · exact h.goto hpc rfl rfl ⟨hk, trivial⟩ rfl rfl
        · next hslow => exact h.goto hpc rfl rfl ⟨hk, hslow⟩ rfl rfl
  | cas old =>
      rw [muUnlock]
      split
      · next hz =>
          subst hz
          exact h.release kind.clearsAllFalse habs hlists (unneeded_of_not_goesSlow hshare hp)
            (view_newWord hshare) hk
      · exact h.goto hpc rfl rfl ⟨hk, trivial⟩ rfl rfl

end Nsync.Mu
