import Nsync.Mu.Effect

/-!
# Fields of the words that the code writes

For every CAS and store on the mutex word there is an operation on its fields,
and the field-wise operation describes the written word exactly.
-/

namespace Nsync.View

/-- A thread acquires; it may clear `MU_DESIG_WAKER` and `MU_LONG_WAIT`. -/
def acquire (v : View) (m : Mode) (clear longWait : Bool) : View :=
  { v.addShare m with
    desig := v.desig && !clear
    longWait := v.longWait && !longWait
    writerWaiting := v.writerWaiting && m == .reader }

/-- A thread that cannot acquire takes the spinlock in order to queue itself. -/
def enqueue (v : View) (m : Mode) (clear longWait : Bool) : View :=
  { v with
    spin := true
    waiting := true
    desig := v.desig && !clear
    longWait := v.longWait || longWait
    writerWaiting := v.writerWaiting || m == .writer
    allFalse := false }

def releaseSpin (v : View) : View := { v with spin := false }

def takeSpin (v : View) : View := { v with spin := true }

/-- A release that wakes nobody. -/
def releaseShare (v : View) (m : Mode) (clearAllFalse : Bool) : View :=
  { v.dropShare m with allFalse := v.allFalse && !clearAllFalse }

/-- An unlocker takes the spinlock to look for waiters; it keeps a write lock if
there are conditions to test. -/
def grab (v : View) (m : Mode) (testing : Bool) : View :=
  { (if testing then (v.dropShare m).addShare .writer else v.dropShare m) with
    spin := true
    desig := true }

/-- The end of the scan. -/
def final (v : View) (late setWriterWaiting setAllFalse noneLeft noneWoken : Bool) : View :=
  { (if late then v.dropShare .writer else v) with
    spin := false
    waiting := v.waiting && !noneLeft
    desig := v.desig && !noneWoken
    cond := v.cond && !noneLeft
    writerWaiting := (v.writerWaiting || setWriterWaiting) && !noneLeft
    allFalse := setAllFalse && !noneLeft }

/-- A conditional waiter takes the spinlock in order to queue itself. -/
def muWaitEnqueue (v : View) (hasCondition : Bool) : View :=
  { v with
    spin := true
    waiting := true
    cond := v.cond || hasCondition
    allFalse := false }

/-- A waiter that timed out takes both the spinlock and a write lock. -/
def tryAcquire (v : View) : View :=
  { v with
    wlock := true
    spin := true
    writerWaiting := false }

/-- A signaller takes the spinlock to move waiters to the mutex queue. -/
def transfer (v : View) : View :=
  { v with
    spin := true
    waiting := true
    allFalse := false }

def transferRelease (v : View) (setWriterWaiting : Bool) : View :=
  { v with
    spin := false
    writerWaiting := v.writerWaiting || setWriterWaiting }

/-- The release in mode `m` wakes nobody, and need not. -/
def Unneeded (v : View) (m : Mode) (clearAllFalse : Bool) : Prop :=
  v.waiting = false ∨ v.desig = true ∨ (m = .reader ∧ (1 < v.readers ∨ v.allFalse = true)) ∨
    (m = .writer ∧ clearAllFalse = false ∧ v.allFalse = true)

end Nsync.View

namespace Nsync.Mu

variable {T : Type}

theorem view_acquireWord {old : Word} {m : Mode} (clear longWait : Bool)
    (h : (view old).HasRoom m) :
    view (acquireWord m clear longWait old) = (view old).acquire m clear longWait := by
  have hlow : Low (maskIf clear muDesigWaker ||| maskIf longWait muLongWait |||
      m.lockType.clearOnAcquire) := by
    apply low_or (low_or (low_maskIf _ low_muDesigWaker) (low_maskIf _ low_muLongWait))
    cases m
    · exact low_zero
    · exact low_muWriterWaiting
  have hmask : view (maskIf clear muDesigWaker ||| maskIf longWait muLongWait |||
      m.lockType.clearOnAcquire) =
        { View.zero with desig := clear, longWait := longWait, writerWaiting := m == .writer } := by
    cases m <;> cases clear <;> cases longWait <;> decide
  rw [acquireWord, view_diff _ hlow, view_add_share h, hmask]
  cases m <;> ext1 <;> simp [View.diff, View.zero, View.acquire, View.addShare]

theorem view_addToAcquire (m : Mode) :
    view m.lockType.addToAcquire = View.zero.acquire m false false := by
  cases m <;> decide

theorem view_enqueueWord (m : Mode) (clear longWait : Bool) (old : Word) :
    view (enqueueWord m clear longWait old) = (view old).enqueue m clear longWait := by
  have hwait : Low m.lockType.setWhenWaiting := by
    cases m
    · exact low_muWaiting
    · exact low_or low_muWaiting low_muWriterWaiting
  have hset : view m.lockType.setWhenWaiting =
      { View.zero with waiting := true, writerWaiting := m == .writer } := by
    cases m <;> decide
  have hclear : view (maskIf clear muDesigWaker ||| muAllFalse) =
      { View.zero with desig := clear, allFalse := true } := by
    cases clear <;> decide
  rw [enqueueWord, view_diff _ (low_or (low_maskIf _ low_muDesigWaker) low_muAllFalse),
    view_or _ hwait, view_or _ (low_maskIf _ low_muLongWait), view_or _ low_muSpinlock,
    view_muSpinlock, view_maskIf, view_muLongWait, hset, hclear]
  cases longWait <;> ext1 <;> simp [View.or, View.diff, View.zero, View.enqueue]

theorem view_releaseSpinlockWord (old : Word) :
    view (releaseSpinlockWord old) = (view old).releaseSpin := by
  rw [releaseSpinlockWord, view_diff _ low_muSpinlock, view_muSpinlock]
  ext1 <;> simp [View.diff, View.zero, View.releaseSpin]

theorem view_spinWord (old : Word) :
    view (spinWord muSpinlock 0#32 old) = (view old).takeSpin := by
  rw [spinWord, view_diff _ low_zero, view_or _ low_muSpinlock, view_muSpinlock, view_zero]
  ext1 <;> simp [View.diff, View.or, View.zero, View.takeSpin]

theorem view_muWaitEnqueueWord (c : Bool) (old : Word) :
    view (spinWord (muSpinlock ||| muWaiting ||| maskIf c muCondition) muAllFalse old) =
      (view old).muWaitEnqueue c := by
  have hlow := low_or (low_or low_muSpinlock low_muWaiting) (low_maskIf c low_muCondition)
  have hset : view (muSpinlock ||| muWaiting ||| maskIf c muCondition) =
      { View.zero with spin := true, waiting := true, cond := c } := by
    cases c <;> decide
  rw [spinWord, view_diff _ low_muAllFalse, view_or _ hlow, hset, view_muAllFalse]
  ext1 <;> simp [View.diff, View.or, View.zero, View.muWaitEnqueue]

theorem view_uncontendedReleaseWord {m : Mode} {old : Word} (h : (view old).HasShare m) :
    view (uncontendedReleaseWord m old) = (view old).releaseShare m (m == .writer) := by
  have hlow : Low m.lockType.clearOnUncontendedRelease := by
    cases m
    · exact low_zero
    · exact low_muAllFalse
  have hmask : view m.lockType.clearOnUncontendedRelease =
      { View.zero with allFalse := m == .writer } := by
    cases m <;> decide
  rw [uncontendedReleaseWord, view_diff _ hlow, view_sub_share h, hmask]
  cases m <;> ext1 <;> simp [View.diff, View.zero, View.releaseShare, View.dropShare]

/-- Whether a release of this kind clears `MU_ALL_FALSE`. -/
def UnlockKind.clearsAllFalse : UnlockKind → Bool
  | .unlock => true
  | .runlock => false
  | .withoutWakeup => false

theorem view_newWord {kind : UnlockKind} {old : Word} (h : (view old).HasShare kind.mode) :
    view (kind.newWord old) = (view old).releaseShare kind.mode kind.clearsAllFalse := by
  have hsub := view_sub_share h
  cases kind with
  | unlock =>
      change view ((old - muWlock) &&& ~~~muAllFalse) = _
      rw [view_diff _ low_muAllFalse, view_muAllFalse]
      change view (old - muWlock) = _ at hsub
      rw [hsub]
      ext1 <;> simp [View.diff, View.zero, View.releaseShare, View.dropShare, UnlockKind.mode,
        UnlockKind.clearsAllFalse]
  | runlock =>
      refine Eq.trans hsub ?_
      ext1 <;> simp [View.releaseShare, View.dropShare, UnlockKind.mode,
        UnlockKind.clearsAllFalse]
  | withoutWakeup =>
      refine Eq.trans hsub ?_
      ext1 <;> simp [View.releaseShare, View.dropShare, UnlockKind.mode,
        UnlockKind.clearsAllFalse]

theorem view_grabWord {m : Mode} {testing : Bool} {old : Word} (h : (view old).HasShare m)
    (hr : m = .reader → (view old).wlock = false) :
    view (grabWord m testing old) = (view old).grab m testing := by
  have hsub := view_sub_share h
  have hearly : view (old - earlyReleaseMu m testing) =
      if testing then ((view old).dropShare m).addShare .writer else (view old).dropShare m := by
    cases testing with
    | false => exact hsub
    | true =>
        cases m with
        | reader =>
            have hroom : (view (old - muRlock)).HasRoom .writer := by
              change view (old - muRlock) = _ at hsub
              rw [hsub]
              exact hr rfl
            have heq : old - earlyReleaseMu .reader true =
                (old - muRlock) + Mode.writer.lockType.addToAcquire := by
              change old - (muRlock - muWlock) = old - muRlock + muWlock
              ring
            rw [heq, view_add_share hroom]
            change view (old - muRlock) = _ at hsub
            rw [hsub]
            rfl
        | writer =>
            have heq : old - earlyReleaseMu .writer true = old := by
              change old - (muWlock - muWlock) = old
              ring
            have hw : (view old).wlock = true := h
            rw [heq]
            ext1 <;> simp [View.dropShare, View.addShare, hw]
  rw [grabWord, view_or _ low_muDesigWaker, view_or _ low_muSpinlock, hearly, view_muSpinlock,
    view_muDesigWaker]
  ext1 <;> simp [View.or, View.zero, View.grab]

theorem view_finalWord {r : Release T} {old : Word} (h : r.late = true → (view old).wlock = true) :
    view (finalWord r old) =
      (view old).final r.late r.setWriterWaiting r.setAllFalse r.noneLeft r.wake.isEmpty := by
  have hsub : view (old - maskIf r.late muWlock) =
      if r.late then (view old).dropShare .writer else view old := by
    cases hl : r.late with
    | false => simp [maskIf]
    | true => exact view_sub_share (m := .writer) (h hl)
  have hlowSet : Low r.setOnRelease :=
    low_or (low_maskIf _ low_muAllFalse) (low_maskIf _ low_muWriterWaiting)
  have hlowClear : Low r.clearOnRelease :=
    low_or (low_or (low_or low_muSpinlock (low_maskIf _ low_muDesigWaker))
      (low_maskIf _ low_muAllFalse)) (low_maskIf _
        (low_or (low_or (low_or low_muWaiting low_muWriterWaiting) low_muCondition)
          low_muAllFalse))
  have hset : view r.setOnRelease =
      { View.zero with
        allFalse := r.setAllFalse
        writerWaiting := r.setWriterWaiting } := by
    rw [Release.setOnRelease]
    cases r.setAllFalse <;> cases r.setWriterWaiting <;> decide
  have hclear : view r.clearOnRelease =
      { View.zero with
        spin := true
        desig := r.wake.isEmpty
        allFalse := !r.setAllFalse || r.noneLeft
        waiting := r.noneLeft
        writerWaiting := r.noneLeft
        cond := r.noneLeft } := by
    rw [Release.clearOnRelease]
    cases r.wake.isEmpty <;> cases r.setAllFalse <;> cases r.noneLeft <;> decide
  rw [finalWord, view_diff _ hlowClear, view_or _ hlowSet, hsub, hset, hclear]
  cases r.late <;> cases r.setAllFalse <;> ext1 <;>
    simp [View.or, View.diff, View.zero, View.final, View.dropShare]

theorem view_tryAcquireWord {old : Word} (hw : (view old).wlock = false)
    (hs : (view old).spin = false) : view (tryAcquireWord old) = (view old).tryAcquire := by
  have hspin : old + muWlock + muSpinlock = old ||| muWlock ||| muSpinlock := by
    rw [add_muWlock hw]
    apply BitVec.add_eq_or_of_and_eq_zero
    rw [and_muSpinlock, view_or _ low_muWlock, view_muWlock]
    simp [View.or, View.zero, hs]
  rw [tryAcquireWord, show muWaddToAcquire = muWlock from rfl, hspin,
    show muWclearOnAcquire = muWriterWaiting from rfl, view_diff _ low_muWriterWaiting,
    view_or _ low_muSpinlock, view_or _ low_muWlock, view_muWlock, view_muSpinlock,
    view_muWriterWaiting]
  ext1 <;> simp [View.or, View.diff, View.zero, View.tryAcquire]

theorem view_or_muWriterWaiting (old : Word) :
    view (old ||| muWriterWaiting) = { view old with writerWaiting := true } := by
  rw [view_or _ low_muWriterWaiting, view_muWriterWaiting]
  ext1 <;> simp [View.or, View.zero]

theorem view_transferWord (old : Word) : view (transferWord old) = (view old).transfer := by
  rw [transferWord, view_diff _ low_muAllFalse, view_or _ low_muWaiting, view_or _ low_muSpinlock,
    view_muSpinlock, view_muWaiting, view_muAllFalse]
  ext1 <;> simp [View.or, View.diff, View.zero, View.transfer]

theorem view_transferReleaseWord (b : Bool) (old : Word) :
    view (transferReleaseWord b old) = (view old).transferRelease b := by
  rw [transferReleaseWord, view_diff _ low_muSpinlock,
    view_or _ (low_maskIf _ low_muWriterWaiting), view_maskIf, view_muSpinlock,
    view_muWriterWaiting]
  cases b <;> ext1 <;> simp [View.or, View.diff, View.zero, View.transferRelease]

theorem muWaitAdd_eq_zero {l : MuWait} {old : Word} (h : (view old).HasShare l.lType) :
    muWaitAdd l old = 0#32 ↔
      ((view old).dropShare l.lType).wlock = false ∧
        ((view old).dropShare l.lType).readers = 0 ∧ l.hadWaiters = true := by
  have hne : l.lType.lockType.addToAcquire ≠ 0#32 := by cases l.lType <;> decide
  rw [muWaitAdd]
  split
  · next hc => simpa [view_sub_share h, and_assoc] using hc
  · next hc =>
      simp only [hne, false_iff]
      simpa [view_sub_share h, and_assoc] using hc

theorem view_muWaitReleaseWord {l : MuWait} {old : Word} (h : (view old).HasShare l.lType) :
    view (muWaitReleaseWord l old) =
      if muWaitAdd l old = 0#32 then (view old).releaseSpin
      else ((view old).dropShare l.lType).releaseSpin := by
  rw [muWaitReleaseWord, view_diff _ low_muSpinlock, view_muSpinlock]
  have hcases : muWaitAdd l old = 0#32 ∨
      muWaitAdd l old = l.lType.lockType.addToAcquire := by
    rw [muWaitAdd]
    split
    · exact Or.inl rfl
    · exact Or.inr rfl
  have hne : l.lType.lockType.addToAcquire ≠ 0#32 := by cases l.lType <;> decide
  rcases hcases with hz | hz
  · rw [hz, if_pos rfl]
    ext1 <;> simp [View.diff, View.zero, View.releaseSpin]
  · rw [hz, if_neg hne, view_sub_share h]
    ext1 <;> simp [View.diff, View.zero, View.releaseSpin]

end Nsync.Mu
