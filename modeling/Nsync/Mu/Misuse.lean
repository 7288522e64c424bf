import Nsync.Mu.Written

/-!
# Releasing a mutex that is not held

The unlock functions check the word before they release, and panic if the mutex
is not held in the mode that they release.  The check of `nsync_mu_runlock` lets
a word through that has neither a writer nor a reader.
-/

namespace Nsync.Mu

variable {T σ : Type}

/-! ## A call without interference -/

/-- Thread `t` goes on, alone, for at most `n` steps in an unlock function. -/
def unlockAlone [DecidableEq T] (t : T) : ℕ → State T σ → State T σ
  | 0, s => s
  | n + 1, s =>
      match s.pc t with
      | .unlock kind k p => unlockAlone t n (muUnlock s t kind k p)
      | _ => s

/-- A call of an unlock function up to its return, its panic, or its call of
`nsync_mu_unlock_slow_`. -/
def callUnlock [DecidableEq T] (s : State T σ) (t : T) (kind : UnlockKind) : State T σ :=
  unlockAlone t 3 (s.setPc t (.unlock kind .ret .cas0))

namespace UnlockKind

/-- The mutex is not held in the mode that is released. -/
def Misused : UnlockKind → Word → Prop
  | .runlock, w => (view w).readers = 0
  | _, w => (view w).wlock = false ∨ (view w).readers ≠ 0

instance (kind : UnlockKind) (w : Word) : Decidable (kind.Misused w) :=
  match kind with
  | .runlock => inferInstanceAs (Decidable (_ = _))
  | .unlock | .withoutWakeup => inferInstanceAs (Decidable (_ ∨ _))

/-- The release changes the lock field of its mode, and no other field.
`nsync_mu_unlock` also clears `MU_ALL_FALSE`. -/
def Released : UnlockKind → Word → Word → Prop
  | .unlock, w, w' => view w' = { view w with wlock := false, allFalse := false }
  | .withoutWakeup, w, w' => view w' = { view w with wlock := false }
  | .runlock, w, w' => (view w').readers + 1 = (view w).readers ∧
      view w' = { view w with readers := (view w').readers }

end UnlockKind

/-- A call in state `s`, which ends in `s'`, finds the misuse and leaves the word
alone then, and otherwise releases one share. -/
structure Detects (kind : UnlockKind) (t : T) (s s' : State T σ) : Prop where
  panics : s'.pc t = .panicked ↔ kind.Misused s.word
  unmodified : s'.pc t = .panicked → s'.word = s.word
  released : s'.pc t = .client none → kind.Released s.word s'.word

section

variable [DecidableEq T] {s : State T σ} {t : T} {kind : UnlockKind}

theorem callUnlock_pc (s : State T σ) (t : T) (kind : UnlockKind) :
    (callUnlock s t kind).pc t =
      if s.word = kind.mode.lockType.addToAcquire then .client none
      else if kind.panics s.word then .panicked
      else if kind.goesSlow s.word then .unlockSlow kind.mode .ret .top
      else .client none := by
  split_ifs <;> simp_all [callUnlock, unlockAlone, muUnlock, afterUnlock, State.setPc, State.setWord]

theorem callUnlock_word (s : State T σ) (t : T) (kind : UnlockKind) :
    (callUnlock s t kind).word =
      if s.word = kind.mode.lockType.addToAcquire then 0#32
      else if kind.panics s.word then s.word
      else if kind.goesSlow s.word then s.word
      else kind.newWord s.word := by
  split_ifs <;> simp_all [callUnlock, unlockAlone, muUnlock, afterUnlock, State.setPc, State.setWord]

end

/-! ## The checks -/

section

variable {w : Word} {kind : UnlockKind}

theorem wlock_sub_muWlock (w : Word) : (view (w - muWlock)).wlock = !(view w).wlock := by
  have hone : muWlock.toNat = 1 := by decide
  have hw := w.isLt
  simp only [view, BitVec.getLsbD, BitVec.toNat_sub, hone, Nat.testBit_zero, ← decide_not,
    decide_eq_decide]
  omega

theorem panics_of_writer (h : kind.mode = .writer) :
    kind.panics w ↔ (view w).wlock = false ∨ (view w).readers ≠ 0 := by
  have hp : kind.panics w ↔ ¬ ((view (kind.newWord w)).readers = 0 ∧
      (view (kind.newWord w)).wlock = false) := by
    rw [← and_muRlockField, ← and_muWlock, ← and_or_eq_zero]
    cases kind <;> first | rfl | cases h
  rw [hp]
  cases hw : (view w).wlock with
  | true =>
      have hshare : (view w).HasShare kind.mode := by
        rw [h]
        exact hw
      rw [view_newWord hshare, h]
      simp [View.releaseShare, View.dropShare]
  | false =>
      -- the subtraction borrows, and so sets the bit
      have hset : (view (kind.newWord w)).wlock = true := by
        have hsub := wlock_sub_muWlock w
        rw [hw] at hsub
        cases kind with
        | unlock =>
            change (view ((w - muWlock) &&& ~~~muAllFalse)).wlock = true
            rw [view_diff _ low_muAllFalse, view_muAllFalse]
            simpa [View.diff, View.zero] using hsub
        | withoutWakeup => exact hsub
        | runlock => cases h
      simp [hset]

theorem runlock_panics :
    UnlockKind.runlock.panics w ↔ (view w).wlock = true ∧ (view w).readers = 0 := by
  have hw : (view (w ^^^ muWlock)).wlock = !(view w).wlock := by simp [view, muWlock]
  have hr : (view (w ^^^ muWlock)).readers = (view w).readers := by
    have : muWlock >>> 8 = 0#32 := by decide
    simp [view, BitVec.ushiftRight_xor_distrib, this]
  simp only [UnlockKind.panics, and_or_eq_zero, and_muWlock, and_muRlockField, hw, hr]
  simp

/-- A word with a share to give up loses exactly that. -/
theorem released_newWord (h : (view w).HasShare kind.mode) : kind.Released w (kind.newWord w) := by
  have hv := view_newWord h
  cases kind with
  | unlock =>
      refine hv.trans ?_
      ext1 <;> simp [View.releaseShare, View.dropShare, UnlockKind.mode, UnlockKind.clearsAllFalse]
  | withoutWakeup =>
      refine hv.trans ?_
      ext1 <;> simp [View.releaseShare, View.dropShare, UnlockKind.mode, UnlockKind.clearsAllFalse]
  | runlock =>
      have hpos : 0 < (view w).readers := h
      simp only [UnlockKind.Released, hv]
      simp only [View.releaseShare, View.dropShare, UnlockKind.mode, UnlockKind.clearsAllFalse]
      exact ⟨by omega, by simp⟩

/-- The word that the first CAS expects. -/
theorem newWord_addToAcquire : kind.newWord kind.mode.lockType.addToAcquire = 0#32 := by
  cases kind <;> decide

theorem addToAcquire_held : ¬ kind.Misused kind.mode.lockType.addToAcquire := by
  cases kind <;> decide

end

/-- The check is right, except that `nsync_mu_runlock` lets a mutex through that
nobody holds. -/
theorem UnlockKind.panics_iff {kind : UnlockKind} {w : Word}
    (h : kind = .runlock → w &&& muAnyLock ≠ 0#32) : kind.panics w ↔ kind.Misused w := by
  cases kind with
  | unlock => exact panics_of_writer rfl
  | withoutWakeup => exact panics_of_writer rfl
  | runlock =>
      have hany := h rfl
      rw [ne_eq, and_muAnyLock] at hany
      rw [runlock_panics]
      simp only [UnlockKind.Misused]
      grind

theorem UnlockKind.hasShare_of_not_misused {kind : UnlockKind} {w : Word} (h : ¬ kind.Misused w) :
    (view w).HasShare kind.mode := by
  cases kind with
  | unlock | withoutWakeup =>
      simp only [UnlockKind.Misused, not_or, Bool.not_eq_false] at h
      exact h.1
  | runlock => exact Nat.pos_of_ne_zero h

variable [DecidableEq T]

/-- For every word, a call of an unlock function without interference panics
exactly if the mutex is not held in its mode, and then leaves the word alone, and
a release on the fast path changes the lock field and nothing else; except that
`nsync_mu_runlock` does not find out that nobody holds the mutex. -/
theorem unlock_detects_misuse_iff (s : State T σ) (t : T) (kind : UnlockKind) :
    Detects kind t s (callUnlock s t kind) ↔
      (kind = .runlock → s.word &&& muAnyLock ≠ 0#32) := by
  constructor
  · rintro hd rfl hfree
    have hmis : UnlockKind.runlock.Misused s.word := ((and_muAnyLock s.word).mp hfree).2
    have hpc := hd.panics.mpr hmis
    rw [callUnlock_pc] at hpc
    split_ifs at hpc with h0 hp
    have hw := (runlock_panics.mp hp).1
    cases hw.symm.trans ((and_muAnyLock s.word).mp hfree).1
  · intro hc
    have hiff : kind.panics s.word ↔ kind.Misused s.word := UnlockKind.panics_iff hc
    refine ⟨?_, ?_, ?_⟩
    all_goals rw [callUnlock_pc]
    · split_ifs with h0 hp hslow
      · simp [h0, addToAcquire_held]
      · simp [hiff.mp hp]
      · simp [← hiff, hp]
      · simp [← hiff, hp]
    · rw [callUnlock_word]
      split_ifs with h0 hp hslow <;> simp
    · rw [callUnlock_word]
      split_ifs with h0 hp hslow
      · intro _
        have hzero : kind.newWord kind.mode.lockType.addToAcquire = 0#32 := newWord_addToAcquire
        rw [h0, ← hzero]
        exact released_newWord (UnlockKind.hasShare_of_not_misused addToAcquire_held)
      · simp
      · simp
      · exact fun _ => released_newWord (UnlockKind.hasShare_of_not_misused (hiff.not.mp hp))

/-- `nsync_mu_runlock` on a mutex that nobody holds returns, and leaves a word
with the greatest count of readers. -/
theorem runlock_of_free : ∃ s : State (Fin 1) Bool, s.word = 0#32 ∧
    (callUnlock s 0 .runlock).pc 0 = .client none ∧
    (callUnlock s 0 .runlock).word = 0xffffff00#32 ∧
    ¬ Detects .runlock 0 s (callUnlock s 0 .runlock) := by
  refine ⟨initial false, rfl, by decide, by decide, fun hd => ?_⟩
  have hpc : (callUnlock (initial (T := Fin 1) false) 0 .runlock).pc 0 = .panicked :=
    hd.panics.mpr (by decide)
  exact absurd hpc (by decide)

end Nsync.Mu
