import Nsync.Mu.Run

/-!
# The summary bits in runs

The word never understates the queue, conditions of queued waiters are tested
only by a write holder without the spinlock, and `MU_DESIG_WAKER` is set only
while somebody is responsible for the queue.
-/

namespace Nsync.Mu

open Nsync.Lib

variable {T σ : Type} [DecidableEq T] [Fintype T]

variable {E : Env σ} {C : WaitCondition → Prop} {s : State T σ} {loc : T → Loc T} {t : T} {x : σ}

/-! ## The queue and the conditions -/

omit [DecidableEq T] in
theorem Good.waiting_of_mem (h : Good E C s loc) {y : T} (hy : y ∈ s.waiters) :
    s.word &&& muWaiting ≠ 0#32 := by
  have hw : (view s.word).waiting = true :=
    h.inv.queue.waiting y (Or.inl (Or.inl ((h.lists.muQ.mem y).mp hy)))
  rw [ne_eq, and_muWaiting, hw]
  exact Bool.noConfusion

omit [DecidableEq T] in
theorem Good.condition_of_mem (h : Good E C s loc) {y : T} (hy : y ∈ s.waiters)
    (hc : (s.wtr y).cond ≠ none) : s.word &&& muCondition ≠ 0#32 := by
  have hw : (view s.word).cond = true :=
    h.inv.queue.cond y (Or.inl ((h.lists.muQ.mem y).mp hy)) hc
  rw [ne_eq, and_muCondition, hw]
  exact Bool.noConfusion

/-- The waiter whose condition the next step of a thread at `p` calls in
`nsync_mu_unlock_slow_`. -/
def Pc.tests (wtr : T → Waiter) : Pc T → Option T
  | .unlockSlow _ _ (.scan sc) =>
      if sc.wakeType = some .writer then none else sc.p.filter fun y => (wtr y).cond.isSome
  | _ => none

omit [DecidableEq T] [Fintype T] in
theorem Pc.tests_eq {wtr : T → Waiter} {p : Pc T} {y : T} (h : p.tests wtr = some y) :
    ∃ m k sc, p = .unlockSlow m k (.scan sc) ∧ sc.wakeType ≠ some .writer ∧ sc.p = some y ∧
      (wtr y).cond ≠ none := by
  unfold Pc.tests at h
  split at h
  · next m k sc =>
      split at h
      · cases h
      · next hwt =>
          rw [Option.filter_eq_some_iff, Option.isSome_iff_ne_none] at h
          exact ⟨m, k, sc, rfl, hwt, h⟩
  · cases h

omit [DecidableEq T] [Fintype T] in
/-- A scan that meets a condition has given up the spinlock to test it. -/
theorem ScanInv.testing_of_cond {sc : Scan T} {done rest : List T} {y : T}
    (h : ScanInv E C s sc done rest) (hwt : sc.wakeType ≠ some .writer) (hy : sc.p = some y)
    (hc : (s.wtr y).cond ≠ none) : sc.testing = true := by
  by_contra ht
  rw [Bool.not_eq_true] at ht
  obtain ⟨-, hw | hrest | ⟨-, z, hz, -, hn⟩⟩ := h.untested ht
  · exact hwt hw
  · have hmem : y ∈ rest := List.mem_of_mem_head? (h.head.trans hy)
    exact hc (hrest y hmem)
  · rw [hy] at hz
    cases hz
    exact hc hn

omit [DecidableEq T] in
theorem Good.tests_locked (h : Good E C s loc) {y : T} (hy : (s.pc t).tests s.wtr = some y) :
    (s.pc t).lockRole = some .writer ∧ s.word &&& muWlock ≠ 0#32 ∧ (s.pc t).spinRole = .no := by
  obtain ⟨m, k, sc, hpc, hwt, hp, hc⟩ := Pc.tests_eq hy
  obtain ⟨done, rest, hinv⟩ := (h.pcs t).scan sc (by rw [hpc]; rfl)
  have ht := hinv.testing_of_cond hwt hp hc
  have hlock : (s.pc t).lockRole = some .writer := by simp [hpc, Pc.lockRole, hinv.late ht]
  refine ⟨hlock, ?_, by simp [hpc, Pc.spinRole, ht]⟩
  have hw : (view s.word).wlock = true := h.inv.lock.shares.write.set_of (t := t) hlock
  rw [ne_eq, and_muWlock, hw]
  exact Bool.noConfusion

/-- The word never understates the queue, not even while somebody holds the
spinlock or has taken the queue private; conditions of queued waiters are tested
with `MU_WLOCK` held and `MU_SPINLOCK` not held; and nobody panics. -/
theorem queue_covered_and_conditions_locked (h : Reachable E Regular x s) :
    (s.waiters ≠ [] → s.word &&& muWaiting ≠ 0#32) ∧
    (∀ y ∈ s.waiters, (s.wtr y).cond ≠ none → s.word &&& muCondition ≠ 0#32) ∧
    (∀ t y, (s.pc t).tests s.wtr = some y →
      (s.pc t).lockRole = some .writer ∧ s.word &&& muWlock ≠ 0#32 ∧ (s.pc t).spinRole = .no) ∧
    ∀ t, s.pc t ≠ .panicked := by
  obtain ⟨loc, hg⟩ := h.good_of_regular
  refine ⟨fun hne => ?_, fun y hy => hg.condition_of_mem hy, fun t y => hg.tests_locked, ?_⟩
  · obtain ⟨y, hy⟩ := List.exists_mem_of_ne_nil _ hne
    exact hg.waiting_of_mem hy
  · intro t ht
    have hok := (hg.pcs t).ok
    rwa [ht] at hok

/-- A thread waits for a condition, and another one that releases the mutex is
about to test it. -/
def testingRun : List (Fin 2 × Act Bool) :=
  [(1, .call (.lock .writer))] ++ goOn 1 1 ++
  [(1, .call (.muWait (some ⟨1, 2, none⟩) false))] ++ goOn 1 9 ++
  [(0, .call (.lock .writer))] ++ goOn 0 3 ++ [(0, .call (.unlock .unlock))] ++ goOn 0 6

theorem conditions_locked_testingRun : ∃ s : State (Fin 2) Bool,
    Reachable flagEnv Regular false s ∧ (s.pc 0).tests s.wtr = some 1 ∧
    (s.pc 0).lockRole = some .writer ∧ s.word &&& muWlock ≠ 0#32 ∧ (s.pc 0).spinRole = .no := by
  obtain ⟨s, hs, hf⟩ := Reachable.exists_of_exec (E := flagEnv) (P := Regular) (x := false)
    testingRun (fun s => decide ((s.pc 0).tests s.wtr = some 1)) (by decide +kernel)
  have ht := of_decide_eq_true hf
  exact ⟨s, hs, ht, (queue_covered_and_conditions_locked hs).2.2.1 0 1 ht⟩

/-! ## The designated waker -/

/-- Between the spinlock-taking CAS of `nsync_mu_unlock_slow_` and the end of its
wake loop. -/
def Pc.waking : Pc T → Bool
  | .unlockSlow _ _ p =>
      match p with
      | .top | .fast _ | .grab _ => false
      | _ => true
  | _ => false

omit [DecidableEq T] [Fintype T] in
theorem Pc.waking_of_region {p : Pc T} (h : p.region = true) : p.waking = true := by
  cases p with
  | unlockSlow m k p => cases p <;> first | rfl | exact h
  | _ => exact h

/-- While `MU_DESIG_WAKER` is set, some thread is waking others or has been taken
off the queue by `nsync_mu_unlock_slow_` and has since neither acquired the
mutex nor queued itself again. -/
theorem desig_waker_responsible (h : Reachable E Regular x s)
    (hd : s.word &&& muDesigWaker ≠ 0#32) :
    (∃ u, (s.pc u).waking = true) ∨ ∃ u, s.dequeued u = true := by
  obtain ⟨loc, hg⟩ := h.good_of_regular
  rw [ne_eq, and_muDesigWaker, Bool.not_eq_false] at hd
  rcases hg.inv.queue.desig hd with ⟨u, hu⟩ | hx
  · exact Or.inl ⟨u, Pc.waking_of_region hu⟩
  · exact Or.inr hx

theorem desig_waker_testingRun : ∃ s : State (Fin 2) Bool,
    Reachable flagEnv Regular false s ∧ s.word &&& muDesigWaker ≠ 0#32 ∧
    ((∃ u, (s.pc u).waking = true) ∨ ∃ u, s.dequeued u = true) := by
  obtain ⟨s, hs, hf⟩ := Reachable.exists_of_exec (E := flagEnv) (P := Regular) (x := false)
    testingRun (fun s => decide (s.word &&& muDesigWaker ≠ 0#32)) (by decide +kernel)
  have hd := of_decide_eq_true hf
  exact ⟨s, hs, hd, desig_waker_responsible hs hd⟩

end Nsync.Mu
