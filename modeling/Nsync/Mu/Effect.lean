import Nsync.Mu.Step

/-!
# What the code reads from and writes to the mutex word

Each test of the word is restated on its fields, and each word that the code
writes is computed from the fields of the word it replaces.
-/

namespace Nsync

/-! ## Zero tests -/

theorem and_or_eq_zero (w a b : Word) :
    w &&& (a ||| b) = 0#32 ↔ w &&& a = 0#32 ∧ w &&& b = 0#32 := by
  rw [BitVec.and_or_distrib_left, BitVec.or_eq_zero_iff]

theorem and_twoPow_eq_zero (w : Word) {i : ℕ} (hi : i < 32) :
    w &&& (1#32 <<< i) = 0#32 ↔ w.getLsbD i = false := by
  constructor
  · intro h
    have := congrArg (fun x => x.getLsbD i) h
    simpa [hi] using this
  · intro h
    apply BitVec.eq_of_getLsbD_eq
    intro j hj
    by_cases hij : j = i
    · subst hij
      simp only [BitVec.getLsbD_and, h, Bool.false_and, BitVec.getLsbD_zero]
    · simp only [BitVec.getLsbD_and, BitVec.getLsbD_shiftLeft, BitVec.getLsbD_one,
        BitVec.getLsbD_zero]
      by_cases hlt : j < i
      · simp [hlt]
      · have : j - i ≠ 0 := by omega
        simp [this]

@[simp] theorem and_muWlock (w : Word) : w &&& muWlock = 0#32 ↔ (view w).wlock = false :=
  and_twoPow_eq_zero w (by omega)

@[simp] theorem and_muSpinlock (w : Word) : w &&& muSpinlock = 0#32 ↔ (view w).spin = false :=
  and_twoPow_eq_zero w (by omega)

@[simp] theorem and_muWaiting (w : Word) : w &&& muWaiting = 0#32 ↔ (view w).waiting = false :=
  and_twoPow_eq_zero w (by omega)

@[simp] theorem and_muDesigWaker (w : Word) :
    w &&& muDesigWaker = 0#32 ↔ (view w).desig = false :=
  and_twoPow_eq_zero w (by omega)

@[simp] theorem and_muCondition (w : Word) : w &&& muCondition = 0#32 ↔ (view w).cond = false :=
  and_twoPow_eq_zero w (by omega)

@[simp] theorem and_muWriterWaiting (w : Word) :
    w &&& muWriterWaiting = 0#32 ↔ (view w).writerWaiting = false :=
  and_twoPow_eq_zero w (by omega)

@[simp] theorem and_muLongWait (w : Word) : w &&& muLongWait = 0#32 ↔ (view w).longWait = false :=
  and_twoPow_eq_zero w (by omega)

@[simp] theorem and_muAllFalse (w : Word) : w &&& muAllFalse = 0#32 ↔ (view w).allFalse = false :=
  and_twoPow_eq_zero w (by omega)

theorem and_muRlockField_toNat (w : Word) :
    (w &&& muRlockField).toNat = 256 * (view w).readers := by
  have hmask : muRlockField = (0xffffff#32) <<< 8 := by decide
  have hshift : w &&& muRlockField = (w >>> 8) <<< 8 := by
    apply BitVec.eq_of_getLsbD_eq
    intro i hi
    rw [hmask]
    simp only [BitVec.getLsbD_and, BitVec.getLsbD_shiftLeft, BitVec.getLsbD_ushiftRight]
    by_cases h8 : i < 8
    · simp [h8]
    · have hall : (0xffffff#32).getLsbD (i - 8) = true := by
        have : i - 8 < 24 := by omega
        interval_cases h : i - 8 <;> rfl
      simp only [hi, decide_true, h8, decide_false, Bool.not_false, Bool.true_and, hall,
        Bool.and_true]
      congr 1
      omega
  have hlt := readers_lt w
  rw [hshift, BitVec.toNat_shiftLeft, Nat.shiftLeft_eq]
  simp only [view] at hlt ⊢
  omega

@[simp] theorem and_muRlockField (w : Word) :
    w &&& muRlockField = 0#32 ↔ (view w).readers = 0 := by
  rw [← BitVec.toNat_inj, and_muRlockField_toNat]
  simp

theorem muRlock_lt_field (w : Word) :
    muRlock < w &&& muRlockField ↔ 1 < (view w).readers := by
  have h : muRlock.toNat = 256 := by decide
  rw [BitVec.lt_def, and_muRlockField_toNat, h]
  omega

@[simp] theorem and_muAnyLock (w : Word) :
    w &&& muAnyLock = 0#32 ↔ (view w).wlock = false ∧ (view w).readers = 0 := by
  rw [muAnyLock, and_or_eq_zero, and_muWlock, and_muRlockField]

/-- A thread in mode `m` may acquire; a thread that was woken ignores waiting
writers and long waiters. -/
def View.CanAcquire (v : View) (m : Mode) (clear : Bool) : Prop :=
  match m with
  | .writer => v.wlock = false ∧ v.readers = 0 ∧ (clear = false → v.longWait = false)
  | .reader => v.wlock = false ∧
      (clear = false → v.writerWaiting = false ∧ v.longWait = false)

/-- The test at the head of `nsync_mu_unlock_slow_`: nobody need be woken. -/
def View.NoWakeup (v : View) : Prop :=
  v.waiting = false ∨ v.desig = true ∨ 1 < v.readers ∨ (v.readers = 1 ∧ v.allFalse = true)

theorem and_zeroToAcquire (w : Word) (m : Mode) :
    w &&& m.lockType.zeroToAcquire = 0#32 ↔ (view w).CanAcquire m false := by
  cases m <;>
    simp [Mode.lockType, readerType, writerType, muRzeroToAcquire, muWzeroToAcquire,
      and_or_eq_zero, View.CanAcquire, and_assoc]

/-! ## Setting and clearing flags -/

/-- Masks of flag bits, which leave the reader count alone. -/
def Low (m : Word) : Prop := m >>> 8 = 0#32

theorem low_or {a b : Word} (ha : Low a) (hb : Low b) : Low (a ||| b) := by
  simp only [Low] at *
  rw [BitVec.ushiftRight_or_distrib, ha, hb, BitVec.or_zero]

theorem low_maskIf (b : Bool) {m : Word} (h : Low m) : Low (maskIf b m) := by
  cases b
  · exact BitVec.zero_ushiftRight
  · exact h

namespace View

def or (v u : View) : View where
  wlock := v.wlock || u.wlock
  spin := v.spin || u.spin
  waiting := v.waiting || u.waiting
  desig := v.desig || u.desig
  cond := v.cond || u.cond
  writerWaiting := v.writerWaiting || u.writerWaiting
  longWait := v.longWait || u.longWait
  allFalse := v.allFalse || u.allFalse
  readers := v.readers

def diff (v u : View) : View where
  wlock := v.wlock && !u.wlock
  spin := v.spin && !u.spin
  waiting := v.waiting && !u.waiting
  desig := v.desig && !u.desig
  cond := v.cond && !u.cond
  writerWaiting := v.writerWaiting && !u.writerWaiting
  longWait := v.longWait && !u.longWait
  allFalse := v.allFalse && !u.allFalse
  readers := v.readers

/-- No flag set and no reader. -/
def zero : View := ⟨false, false, false, false, false, false, false, false, 0⟩

end View

theorem view_or (w : Word) {m : Word} (h : Low m) : view (w ||| m) = (view w).or (view m) := by
  have hr := readers_or w m h
  ext1
  all_goals first | exact BitVec.getLsbD_or | exact hr

theorem view_diff (w : Word) {m : Word} (h : Low m) :
    view (w &&& ~~~m) = (view w).diff (view m) := by
  have hr := readers_andNot w m h
  ext1
  all_goals first | exact hr | simp [view, View.diff]

theorem view_zero : view 0#32 = View.zero := by decide

theorem view_maskIf (b : Bool) (m : Word) :
    view (maskIf b m) = if b then view m else View.zero := by
  cases b
  · exact view_zero
  · rfl

theorem view_muWlock : view muWlock = { View.zero with wlock := true } := by decide
theorem view_muSpinlock : view muSpinlock = { View.zero with spin := true } := by decide
theorem view_muWaiting : view muWaiting = { View.zero with waiting := true } := by decide
theorem view_muDesigWaker : view muDesigWaker = { View.zero with desig := true } := by decide
theorem view_muCondition : view muCondition = { View.zero with cond := true } := by decide
theorem view_muWriterWaiting :
    view muWriterWaiting = { View.zero with writerWaiting := true } := by decide
theorem view_muLongWait : view muLongWait = { View.zero with longWait := true } := by decide
theorem view_muAllFalse : view muAllFalse = { View.zero with allFalse := true } := by decide

theorem low_muWlock : Low muWlock := by unfold Low; decide
theorem low_muSpinlock : Low muSpinlock := by unfold Low; decide
theorem low_muWaiting : Low muWaiting := by unfold Low; decide
theorem low_muDesigWaker : Low muDesigWaker := by unfold Low; decide
theorem low_muCondition : Low muCondition := by unfold Low; decide
theorem low_muWriterWaiting : Low muWriterWaiting := by unfold Low; decide
theorem low_muLongWait : Low muLongWait := by unfold Low; decide
theorem low_muAllFalse : Low muAllFalse := by unfold Low; decide
theorem low_zero : Low 0#32 := by unfold Low; decide

namespace View

/-- Give a thread a share of the lock in mode `m`. -/
def addShare (v : View) : Mode → View
  | .writer => { v with wlock := true }
  | .reader => { v with readers := v.readers + 1 }

/-- Take back a share of the lock in mode `m`. -/
def dropShare (v : View) : Mode → View
  | .writer => { v with wlock := false }
  | .reader => { v with readers := v.readers - 1 }

/-- There is room for a share in mode `m`. -/
def HasRoom (v : View) : Mode → Prop
  | .writer => v.wlock = false
  | .reader => v.readers + 1 < 2 ^ 24

/-- There is a share in mode `m` to take back. -/
def HasShare (v : View) : Mode → Prop
  | .writer => v.wlock = true
  | .reader => 0 < v.readers

theorem HasShare.not_free {v : View} {m : Mode} (h : v.HasShare m) (hw : v.wlock = false) :
    v.readers ≠ 0 := by
  cases m with
  | reader => exact Nat.pos_iff_ne_zero.mp h
  | writer => exact Bool.noConfusion (hw.symm.trans h)

end View

theorem view_add_share {w : Word} {m : Mode} (h : (view w).HasRoom m) :
    view (w + m.lockType.addToAcquire) = (view w).addShare m := by
  cases m with
  | reader => exact view_add_muRlock h
  | writer =>
      change view (w + muWlock) = _
      rw [add_muWlock h, view_or w low_muWlock, view_muWlock]
      ext1 <;> simp [View.or, View.zero, View.addShare]

theorem view_sub_share {w : Word} {m : Mode} (h : (view w).HasShare m) :
    view (w - m.lockType.addToAcquire) = (view w).dropShare m := by
  cases m with
  | reader => exact view_sub_muRlock h
  | writer =>
      change view (w - muWlock) = _
      rw [sub_muWlock h, view_diff w low_muWlock, view_muWlock]
      ext1 <;> simp [View.diff, View.zero, View.dropShare]

end Nsync

namespace Nsync.Mu

variable {T : Type}

theorem and_zeroToAcquire_clear (w : Word) (m : Mode) (clear : Bool) :
    w &&& zeroToAcquire m clear = 0#32 ↔ (view w).CanAcquire m clear := by
  cases clear with
  | false => simpa [zeroToAcquire] using and_zeroToAcquire w m
  | true =>
      cases m with
      | reader =>
          have : zeroToAcquire .reader true = muWlock := by decide
          simp [this, View.CanAcquire]
      | writer =>
          have : zeroToAcquire .writer true = muAnyLock := by decide
          simp [this, View.CanAcquire]

/-! ## Other tests -/

@[simp] theorem and_muWheldIfNonZero (w : Word) :
    w &&& muWheldIfNonZero = 0#32 ↔ (view w).wlock = false :=
  and_muWlock w

@[simp] theorem and_muRheldIfNonZero (w : Word) :
    w &&& muRheldIfNonZero = 0#32 ↔ (view w).readers = 0 :=
  and_muRlockField w

theorem and_tryMask (w : Word) :
    w &&& (muWzeroToAcquire ||| muSpinlock) = 0#32 ↔
      (view w).wlock = false ∧ (view w).readers = 0 ∧ (view w).longWait = false ∧
        (view w).spin = false := by
  simp [muWzeroToAcquire, and_or_eq_zero, and_assoc]

theorem and_writerWaiting_spin (w : Word) :
    w &&& (muWriterWaiting ||| muSpinlock) = 0#32 ↔
      (view w).writerWaiting = false ∧ (view w).spin = false := by
  simp [and_or_eq_zero]

/-- Testing that among two groups of bits exactly the first is set. -/
theorem and_or_eq_left {w a b : Word} (hab : a &&& b = 0#32) :
    w &&& (a ||| b) = a ↔ w &&& a = a ∧ w &&& b = 0#32 := by
  have hba : b &&& a = 0#32 := by rw [BitVec.and_comm, hab]
  constructor
  · intro h
    have h1 := congrArg (· &&& a) h
    have h2 := congrArg (· &&& b) h
    simp only [BitVec.and_assoc, BitVec.and_or_distrib_right, BitVec.and_self, hab, hba,
      BitVec.or_zero, BitVec.zero_or] at h1 h2
    exact ⟨h1, h2⟩
  · rintro ⟨h1, h2⟩
    rw [BitVec.and_or_distrib_left, h1, h2, BitVec.or_zero]

theorem and_twoPow_eq_self (w : Word) {i : ℕ} (hi : i < 32) :
    w &&& (1#32 <<< i) = 1#32 <<< i ↔ w.getLsbD i = true := by
  constructor
  · intro h
    have := congrArg (fun x => x.getLsbD i) h
    simpa [hi] using this
  · intro h
    apply BitVec.eq_of_getLsbD_eq
    intro j hj
    by_cases hij : j = i
    · subst hij
      simp only [BitVec.getLsbD_and, h, Bool.true_and]
    · simp only [BitVec.getLsbD_and, BitVec.getLsbD_shiftLeft, BitVec.getLsbD_one]
      by_cases hlt : j < i
      · simp [hlt]
      · have : j - i ≠ 0 := by omega
        simp [this]

theorem waiting_noDesig (w : Word) :
    w &&& (muWaiting ||| muDesigWaker) = muWaiting ↔
      (view w).waiting = true ∧ (view w).desig = false := by
  rw [and_or_eq_left (by decide), and_muDesigWaker]
  exact and_congr_left' (and_twoPow_eq_self w (by omega))

theorem hadWaiters_iff (w : Word) :
    w &&& (muDesigWaker ||| muWaiting) = muWaiting ↔
      (view w).waiting = true ∧ (view w).desig = false := by
  rw [BitVec.or_comm]
  exact waiting_noDesig w

theorem waiting_noDesig_noAllFalse (w : Word) :
    w &&& (muWaiting ||| muDesigWaker ||| muAllFalse) = muWaiting ↔
      (view w).waiting = true ∧ (view w).desig = false ∧ (view w).allFalse = false := by
  rw [BitVec.or_assoc, and_or_eq_left (by decide), and_or_eq_zero, and_muDesigWaker,
    and_muAllFalse]
  exact and_congr_left' (and_twoPow_eq_self w (by omega))

theorem field_eq_muRlock (w : Word) : w &&& muRlockField = muRlock ↔ (view w).readers = 1 := by
  have h : muRlock.toNat = 256 := by decide
  rw [← BitVec.toNat_inj, and_muRlockField_toNat, h]
  omega

theorem lastReader_noAllFalse (w : Word) :
    w &&& (muRlockField ||| muAllFalse) = muRlock ↔
      (view w).readers = 1 ∧ (view w).allFalse = false := by
  rw [← field_eq_muRlock, ← and_muAllFalse]
  have hf : muRlockField &&& muAllFalse = 0#32 := by decide
  have hr : muRlock &&& muRlockField = muRlock := by decide
  have hn : muRlock &&& muAllFalse = 0#32 := by decide
  constructor
  · intro h
    have h1 := congrArg (· &&& muRlockField) h
    have h2 := congrArg (· &&& muAllFalse) h
    simp only [hr, hn, BitVec.and_assoc, BitVec.and_or_distrib_right, BitVec.and_self, hf,
      BitVec.and_comm muAllFalse muRlockField, BitVec.or_zero, BitVec.zero_or] at h1 h2
    exact ⟨h1, h2⟩
  · rintro ⟨h1, h2⟩
    rw [BitVec.and_or_distrib_left, h1, h2, BitVec.or_zero]

/-- The test for a last reader that leaves only false conditions behind. -/
theorem oddReaders_allFalse {w : Word} (h : (view w).readers ≤ 1) :
    w &&& (muRlock ||| muAllFalse) = muRlock ||| muAllFalse ↔
      (view w).readers = 1 ∧ (view w).allFalse = true := by
  have hd : muRlock &&& muAllFalse = 0#32 := by decide
  have hbit : w &&& muRlock = muRlock ↔ (view w).readers = 1 := by
    rw [show muRlock = 1#32 <<< 8 from rfl, and_twoPow_eq_self w (by omega)]
    have hr : (view w).readers % 2 = 1 ↔ w.getLsbD 8 = true := by
      rw [← BitVec.testBit_toNat, Nat.testBit_eq_decide_div_mod_eq, decide_eq_true_eq]
      simp [view, Nat.shiftRight_eq_div_pow]
    rw [← hr]
    omega
  have hor : w &&& (muRlock ||| muAllFalse) = muRlock ||| muAllFalse ↔
      w &&& muRlock = muRlock ∧ w &&& muAllFalse = muAllFalse := by
    constructor
    · intro h
      have h1 := congrArg (· &&& muRlock) h
      have h2 := congrArg (· &&& muAllFalse) h
      simp only [BitVec.and_assoc, BitVec.and_or_distrib_right, BitVec.and_self, hd,
        BitVec.and_comm muAllFalse muRlock, BitVec.or_zero, BitVec.zero_or] at h1 h2
      exact ⟨h1, h2⟩
    · rintro ⟨h1, h2⟩
      rw [BitVec.and_or_distrib_left, h1, h2]
  rw [hor, hbit]
  exact and_congr_right' (and_twoPow_eq_self w (by omega))

theorem unlockSlow_test (w : Word) :
    (w &&& muWaiting = 0#32 ∨ w &&& muDesigWaker ≠ 0#32 ∨ muRlock < w &&& muRlockField ∨
        w &&& (muRlock ||| muAllFalse) = muRlock ||| muAllFalse) ↔ (view w).NoWakeup := by
  rw [and_muWaiting, muRlock_lt_field, View.NoWakeup, ne_eq, and_muDesigWaker,
    Bool.not_eq_false]
  by_cases h : (view w).readers ≤ 1
  · rw [oddReaders_allFalse h]
  · have : 1 < (view w).readers := by omega
    simp [this]

end Nsync.Mu
