import Nsync.Mu.Debug
import Nsync.Mu.WriterWaiting

/-!
# The release inside a conditional wait

`nsync_mu_wait_with_deadline` decides whether its release has to wake somebody
from the word that it found when it took the spinlock.  A designated waker that
acquires a read lock in between clears `MU_DESIG_WAKER`, and the release does not
see it.
-/

namespace Nsync.Mu

open Nsync.Lib

variable {T σ : Type} [DecidableEq T]

variable {E : Env σ} {C : WaitCondition → Prop} {t u x : T} {a a' : AState T σ}

section

variable [Fintype T]

/-- While another thread holds the spinlock, nobody joins the queue. -/
theorem AStep.muQ_of_plain (hs : AStep E C t a a') (hi : AInv E C a) (hut : u ≠ t)
    (hu : (a.th u).spin = .plain) (hx : a'.loc x = .muQ) : a.loc x = .muQ := by
  have hset : a.v.spin = true := hi.lock.spin.set_of (t := u) (by simp [hu])
  have hno : (a.th t).spin = .no := hi.lock.no_spin_of (by simp [hu]) (Ne.symm hut)
  cases hs.move hi.place x with
  | stay h' => rwa [← h']
  | insert hxt h h' hsp => simp [hno] at hsp
  | giveBack h h' hsp => simp [hno, hset] at hsp
  | muJoin hxt h h' hsp | transfer h h' hsp => simp [hset] at hsp
  | _ => simp_all

/-- A write lock with the spinlock keeps `MU_DESIG_WAKER` as it is. -/
theorem AStep.desig_of_plain (hs : AStep E C t a a') (hi : AInv E C a) (hut : u ≠ t)
    (hu : (a.th u).spin = .plain) (hl : (a.th u).lock = some .writer) (hd : a.v.desig = true) :
    a'.v.desig = true := by
  have hset : a.v.spin = true := hi.lock.spin.set_of (t := u) (by simp [hu])
  have hwl : a.v.wlock = true := hi.lock.shares.write.set_of (t := u) hl
  have hno : (a.th t).spin = .no := hi.lock.no_spin_of (by simp [hu]) (Ne.symm hut)
  cases hs with
  | acquire m clear hlk hsp hph hv => cases m <;> simp_all [View.CanAcquire]
  | grab m testing hlk hsp hr hspin => simp [hset] at hspin
  | retake hsp hr hspin => simp [hset] at hspin
  | next hp =>
      have := hp.spin_cases.1
      simp [hno] at this
  | release m | muRelease m => cases m <;> exact hd
  | _ => first | exact hd | simp_all

end

/-! ## Runs -/

section

variable {s s' : State T σ} {act : Act σ} {loc loc' : T → Loc T} {y : σ}

/-- While a thread that holds a read lock is between the CAS that takes the
spinlock and the CAS that releases it in `nsync_mu_wait_with_deadline`, the step
of another thread does not clear `MU_DESIG_WAKER`. -/
def KeepsDesig (E : Env σ) (t : T) (act : Act σ) (s : State T σ) : Prop :=
  ∀ s', step E t act s = some s' → ∀ u l p, u ≠ t → s.pc u = .muWait l (.release p) →
    l.lType = .reader → s.word &&& muDesigWaker ≠ 0#32 → s'.word &&& muDesigWaker ≠ 0#32

/-- A conditional wait that need not look after the queue has found nobody there,
or somebody who does. -/
def ReleaseOk (s : State T σ) : Prop :=
  ∀ u l p, s.pc u = .muWait l (.release p) → l.hadWaiters = false →
    (∀ z ∈ s.waiters, z = u) ∨ s.word &&& muDesigWaker ≠ 0#32

theorem step_release {w : Waiter} (hok : (s.pc t).Ok C w) (hs : step E t act s = some s')
    {l' : MuWait} {p' : LoadCas} (hpc' : s'.pc t = .muWait l' (.release p')) :
    (∃ l old, s.pc t = .muWait l (.enqueue (.cas old)) ∧ s.word = old ∧
      l'.hadWaiters = decide (old &&& (muDesigWaker ||| muWaiting) = muWaiting) ∧
      s'.word = spinWord (muSpinlock ||| muWaiting ||| maskIf l.condition.isSome muCondition)
        muAllFalse old ∧ ∀ z ∈ s'.waiters, z = t ∨ z ∈ s.waiters) ∨
    (∃ p, s.pc t = .muWait l' (.release p)) ∧ s'.word = s.word ∧ s'.waiters = s.waiters := by
  rcases step_inMuWait hok hs hpc' rfl with ⟨ch, l, p, rfl, hpc, hs'⟩ | rfl
  · rcases p with _ | _ | _ | _ | ⟨_ | old⟩ | ⟨_ | _⟩ | _ | _ | _ | _ | _ | _ | _ | _ | ⟨_, _ | _⟩ |
        _ | _ | _ | _ <;>
      simp only [muWaitWithDeadline, startLockSlow] at hs'
    case enqueue.cas =>
      split at hs' <;> cases hs'
      · next heq =>
          simp only [State.setPc, Function.update_self] at hpc'
          cases hpc'
          refine Or.inl ⟨l, old, hpc, heq, rfl, rfl, fun z hz => ?_⟩
          cases hfirst : l.firstWait <;> simp [hfirst, or_comm] at hz ⊢ <;> exact hz
      · rw [State.setPc_self] at hpc'
        cases hpc'
    case release.load =>
      cases hs'
      rw [State.setPc_self] at hpc'
      cases hpc'
      exact Or.inr ⟨⟨_, hpc⟩, rfl, rfl⟩
    case release.cas =>
      repeat' split at hs'
      all_goals
        cases hs'
        rw [State.setPc_self] at hpc'
        cases hpc'
      exact Or.inr ⟨⟨_, hpc⟩, rfl, rfl⟩
    case sem =>
      cases ch <;> simp only [semWaitWithCancel, semP] at hs' <;> split at hs' <;> cases hs' <;>
        rw [State.setPc_self] at hpc' <;> cases hpc'
    all_goals repeat' split at hs'
    all_goals
      cases hs'
      try rw [State.setPc_self] at hpc'
      cases hpc'
  · cases hs
    exact Or.inr ⟨⟨p', hpc'⟩, rfl, rfl⟩

variable [Fintype T]

/-- Regular calls in which nobody clears `MU_DESIG_WAKER` under a reader that is
about to wait for a condition. -/
def RegularKeeping (E : Env σ) (t : T) (act : Act σ) (s : State T σ) : Prop :=
  Regular t act s ∧ KeepsDesig E t act s

theorem ReleaseOk.step (h : ReleaseOk s) (hg : Good E C s loc) (hg' : Good E C s' loc')
    (hstep : AStep E C t (s.abs loc) (s'.abs loc')) (hkeep : KeepsDesig E t act s)
    (hs : step E t act s = some s') : ReleaseOk s' := by
  intro u l p hpc hhad
  rcases eq_or_ne u t with rfl | hut
  · rcases step_release (hg.pcs u).ok hs hpc with
      ⟨l₀, old, hpc₀, rfl, hdef, hw, hq⟩ | ⟨⟨p₀, hpc₀⟩, hw, hq⟩
    · rw [hhad, eq_comm, decide_eq_false_iff_not, hadWaiters_iff] at hdef
      cases hd : (view s.word).desig with
      | true =>
          right
          rw [hw, ne_eq, and_muDesigWaker, view_muWaitEnqueueWord]
          simp [View.muWaitEnqueue, hd]
      | false =>
          left
          intro z hz
          rcases hq z hz with rfl | hz
          · rfl
          · have hwait := hg.waiting_of_mem hz
            rw [ne_eq, and_muWaiting, Bool.not_eq_false] at hwait
            exact (hdef ⟨hwait, hd⟩).elim
    · rw [hw, hq]
      exact h u l p₀ hpc₀ hhad
  · have hpc₀ : s.pc u = .muWait l (.release p) := by rwa [step_pc_of_ne hut hs] at hpc
    have hplain : ((s.abs loc).th u).spin = .plain := by
      simp [State.abs, Pc.abs, hpc₀, Pc.spinRole]
    rcases h u l p hpc₀ hhad with hq | hd
    · refine Or.inl fun z hz => hq z ?_
      exact (hg.lists.muQ.mem z).mpr
        (hstep.muQ_of_plain hg.inv hut hplain ((hg'.lists.muQ.mem z).mp hz))
    · refine Or.inr ?_
      cases hm : l.lType with
      | reader => exact hkeep s' hs u l p hut hpc₀ hm hd
      | writer =>
          rw [ne_eq, and_muDesigWaker, Bool.not_eq_false] at hd ⊢
          exact hstep.desig_of_plain hg.inv hut hplain
            (by simp [State.abs, Pc.abs, hpc₀, Pc.lockRole, hm]) hd

theorem Reachable.releaseOk (h : Reachable E (RegularKeeping E) y s) : ReleaseOk s := by
  refine h.invariant (I := ReleaseOk) (fun u l p hpc => by simp [initial] at hpc) ?_
  intro t act s₁ s₂ hr hok hP hs
  have hreg : Reachable E Regular y s₁ := Runs.mono hr fun _ _ _ hP => hP.1
  obtain ⟨loc, loc', hg, hg', hstep⟩ := hreg.step_of_regular hP.1 hs
  exact hok.step hg hg' hstep hP.2 hs

/-- In every run in which no designated waker acquires under a reader that is
about to wait for a condition: when the release of `nsync_mu_wait_with_deadline`
leaves the mutex without a holder and does not go on to look for waiters, the
caller is alone on the queue, or `MU_DESIG_WAKER` is set and somebody is
responsible for the queue. -/
theorem muWait_hands_over (h : Reachable E (RegularKeeping E) y s) {t : T} {l : MuWait} {old : Word}
    {ch : Choice} (hpc : s.pc t = .muWait l (.release (.cas old))) (hcas : s.word = old)
    (hP : RegularKeeping E t (.step ch) s) (hs : step E t (.step ch) s = some s')
    (hfree : s'.word &&& muAnyLock = 0#32) (hslow : ∀ m k p, s'.pc t ≠ .unlockSlow m k p) :
    (∀ z ∈ s'.waiters, z = t) ∨ s'.word &&& muDesigWaker ≠ 0#32 ∧
      ((∃ u, (s'.pc u).waking = true) ∨ ∃ u, s'.dequeued u = true) := by
  have hr : Reachable E Regular y s := Runs.mono h fun _ _ _ hP => hP.1
  obtain ⟨loc, loc', hg, hg', -⟩ := hr.step_of_regular hP.1 hs
  have hshare : (view s.word).HasShare l.lType :=
    hg.inv.lock.shares.hasShare (t := t) (by simp [State.abs, Pc.abs, hpc, Pc.lockRole])
  subst hcas
  have hword := view_muWaitReleaseWord hshare
  have hzero := muWaitAdd_eq_zero hshare
  have hsummary := hg'.summarised
  simp only [step, hpc, muWaitWithDeadline, if_true] at hs
  split at hs <;> cases hs
  · exact (hslow _ _ _ (State.setPc_self ..)).elim
  · next hadd =>
      rw [if_neg hadd] at hword
      have hfree' : (view (muWaitReleaseWord l s.word)).wlock = false ∧
          (view (muWaitReleaseWord l s.word)).readers = 0 := (and_muAnyLock _).mp hfree
      rw [hword] at hfree'
      -- the last holder wakes nobody only if it saw no reason to
      have hhad : l.hadWaiters = false := by
        by_contra hh
        rw [Bool.not_eq_false] at hh
        exact hadd (hzero.mpr ⟨hfree'.1, hfree'.2, hh⟩)
      refine (h.releaseOk t l _ hpc hhad).imp id fun hd => ?_
      have hd' : muWaitReleaseWord l s.word &&& muDesigWaker ≠ 0#32 := by
        rw [ne_eq, and_muDesigWaker, Bool.not_eq_false] at hd ⊢
        rw [hword]
        cases l.lType <;> exact hd
      exact ⟨hd', hsummary.desig hd'⟩

/-- Between the two CASes of a conditional wait, with a read lock. -/
def Pc.readReleases : Pc T → Bool
  | .muWait l (.release _) => l.lType == .reader
  | _ => false

omit [DecidableEq T] [Fintype T] in
theorem Pc.readReleases_iff {p : Pc T} :
    p.readReleases = true ↔ ∃ l q, p = .muWait l (.release q) ∧ l.lType = .reader := by
  unfold Pc.readReleases
  split <;> simp_all

instance (t : T) (act : Act σ) (s : State T σ) : Decidable (KeepsDesig E t act s) :=
  decidable_of_iff (∀ s' ∈ step E t act s, ∀ u, u ≠ t → (s.pc u).readReleases = true →
      s.word &&& muDesigWaker ≠ 0#32 → s'.word &&& muDesigWaker ≠ 0#32) <| by
    simp only [KeepsDesig, Option.mem_def, Pc.readReleases_iff]
    constructor
    · exact fun h s' hs u l p hut hpc hl => h s' hs u hut ⟨l, p, hpc, hl⟩
    · rintro h s' hs u hut ⟨l, p, hpc, hl⟩
      exact h s' hs u l p hut hpc hl

instance (t : T) (act : Act σ) (s : State T σ) : Decidable (RegularKeeping E t act s) :=
  inferInstanceAs (Decidable (_ ∧ _))

/-- The word that the release CAS of a conditional wait expects. -/
def Pc.releaseCas : Pc T → Option Word
  | .muWait _ (.release (.cas old)) => some old
  | _ => none

omit [DecidableEq T] [Fintype T] in
theorem Pc.releaseCas_eq {p : Pc T} {old : Word} (h : p.releaseCas = some old) :
    ∃ l, p = .muWait l (.release (.cas old)) := by
  unfold Pc.releaseCas at h
  split at h <;> cases h
  exact ⟨_, rfl⟩

def Pc.inUnlockSlow : Pc T → Bool
  | .unlockSlow _ _ _ => true
  | _ => false

omit [DecidableEq T] [Fintype T] in
theorem Pc.ne_unlockSlow {p : Pc T} (h : p.inUnlockSlow = false) (m : Mode) (k : UnlockCont)
    (q : UnlockSlowPc T) : p ≠ .unlockSlow m k q := by
  rintro rfl
  cases h

/-- A reader begins to wait for a condition, alone. -/
def aloneRun : List (Fin 3 × Act Bool) :=
  List.flatten [[(0, .call (.lock .reader))], goOn 0 1,
    [(0, .call (.muWait (some ⟨1, 2, none⟩) false))], goOn 0 7]

theorem muWait_hands_over_aloneRun : ∃ s s' : State (Fin 3) Bool,
    Reachable flagEnv (RegularKeeping flagEnv) false s ∧ step flagEnv 0 (.step .run) s = some s' ∧
    s'.word &&& muAnyLock = 0#32 ∧ s'.waiters = [0] ∧ ((∀ z ∈ s'.waiters, z = 0) ∨
      s'.word &&& muDesigWaker ≠ 0#32 ∧
        ((∃ u, (s'.pc u).waking = true) ∨ ∃ u, s'.dequeued u = true)) := by
  obtain ⟨s, hs, hf⟩ := Reachable.exists_of_exec (E := flagEnv) (P := RegularKeeping flagEnv)
    (x := false) aloneRun (fun s => decide ((s.pc 0).releaseCas = some s.word ∧
      RegularKeeping flagEnv 0 (.step .run) s ∧
      (step flagEnv 0 (.step .run) s).map (fun s' => (s'.word &&& muAnyLock, s'.waiters,
        (s'.pc 0).inUnlockSlow)) = some (0#32, [0], false)))
    (by decide +kernel)
  obtain ⟨hcas, hP, hstep⟩ := of_decide_eq_true hf
  obtain ⟨l, hpc⟩ := Pc.releaseCas_eq hcas
  obtain ⟨s', hs', heq⟩ := Option.map_eq_some_iff.mp hstep
  simp only [Prod.mk.injEq] at heq
  obtain ⟨hfree, hq, hslow⟩ := heq
  exact ⟨s, s', hs, hs', hfree, hq,
    muWait_hands_over hs hpc rfl hP hs' hfree (Pc.ne_unlockSlow hslow)⟩

/-- A reader has been woken and is the designated waker.  Another reader holds
the mutex, a writer queues, and the holder begins to wait for a condition.  It
takes the spinlock while `MU_DESIG_WAKER` is set, then the woken reader acquires
and releases. -/
def wokenReaderRun : List (Fin 3 × Act Bool) :=
  List.flatten [[(0, .call (.lock .writer))], goOn 0 1, [(1, .call (.lock .reader))], goOn 1 8,
    [(0, .call (.unlock .unlock))], goOn 0 12, [(0, .call (.lock .reader))], goOn 0 3,
    [(2, .call (.lock .writer))], goOn 2 8,
    [(0, .call (.muWait (some ⟨1, 2, none⟩) false))], goOn 0 6,
    goOn 1 4, [(1, .call (.unlock .runlock))], goOn 1 3, goOn 0 1]

/-- The writer is left asleep on the queue of a free mutex, and nobody is
responsible for it. -/
theorem muWait_leaves_writer : ∃ s s' : State (Fin 3) Bool, Reachable flagEnv Regular false s ∧
    (∃ l, s.pc 0 = .muWait l (.release (.cas s.word))) ∧ step flagEnv 0 (.step .run) s = some s' ∧
    s'.word &&& muAnyLock = 0#32 ∧ (∀ m k p, s'.pc 0 ≠ .unlockSlow m k p) ∧ 2 ∈ s'.waiters ∧
    (s'.wtr 2).cond = none ∧ s'.word &&& muDesigWaker = 0#32 ∧
    (∀ u, (s'.pc u).waking = false) ∧ ∀ u, s'.dequeued u = false := by
  obtain ⟨s, hs, hf⟩ := Reachable.exists_of_exec (E := flagEnv) (P := Regular)
    (x := false) wokenReaderRun (fun s => decide ((s.pc 0).releaseCas = some s.word ∧
      (step flagEnv 0 (.step .run) s).map (fun s' => decide (s'.word &&& muAnyLock = 0#32 ∧
        (s'.pc 0).inUnlockSlow = false ∧ 2 ∈ s'.waiters ∧ (s'.wtr 2).cond = none ∧
        s'.word &&& muDesigWaker = 0#32 ∧ (∀ u, (s'.pc u).waking = false) ∧
        ∀ u, s'.dequeued u = false)) = some true))
    (by decide +kernel)
  obtain ⟨hcas, hstep⟩ := of_decide_eq_true hf
  obtain ⟨s', hs', heq⟩ := Option.map_eq_some_iff.mp hstep
  obtain ⟨hfree, hslow, hrest⟩ := of_decide_eq_true heq
  exact ⟨s, s', hs, Pc.releaseCas_eq hcas, hs', hfree, Pc.ne_unlockSlow hslow, hrest⟩

end

end Nsync.Mu
