import Nsync.Counter.Inv

/-!
# Adding, waiting and reaching zero

The results of `nsync_counter_add` and `nsync_counter_wait` over whole runs.
-/

namespace Nsync.Counter

open Nsync.Lib

variable {T : Type} [DecidableEq T]

/-- A run from `s` to `s'` in which every step of a thread is one that `P` allows. -/
def Runs (P : T → Act → State T → Prop) : State T → State T → Prop :=
  Reach (fun (i : T × Act) s => step i.1 i.2 s) fun i s => P i.1 i.2 s

/-- The states that a counter with initial value `v` reaches. -/
def Reachable (v : Word) : State T → Prop := Runs (fun _ _ _ => True) (counterNew v)

/-- Steps taken while thread `t` has not returned from its call. -/
def Inside (t : T) (_ : T) (_ : Act) (s : State T) : Prop := ∀ r, s.pc t ≠ .client r

variable {s s' : State T} {t : T} {v : Word}

theorem Reachable.inv (h : Reachable v s) : Inv s :=
  Reach.invariant h (Inv.counterNew v) fun _ _ _ _ hi _ hs => hi.next hs

theorem Reachable.append {P : T → Act → State T → Prop} (h : Reachable v s) (h' : Runs P s s') :
    Reachable v s' :=
  Reach.trans h (Reach.mono h' fun _ _ _ => trivial)

theorem Runs.snoc {P : T → Act → State T → Prop} {s₁ s₂ : State T} (h : Runs P s s₁) {a : Act}
    (hP : P t a s₁) (hs : step t a s₁ = some s₂) : Runs P s s₂ :=
  Reach.step (t, a) h hP hs

theorem Effect.pc_of_ne {u : T} (he : Effect t s s') (hu : u ≠ t) : s'.pc u = s.pc u := by
  cases he with
  | move p hm => rw [hm.pc, Function.update_of_ne hu]
  | post hs | crash _ _ _ _ hs => rw [hs]
  | wakePost _ _ _ _ hs => rw [hs]; simp [State.setPc, hu]
  | cas _ _ _ _ hs | wake _ _ _ _ _ _ hs | init _ _ hs | link _ _ _ _ hs | noLink _ _ _ _ hs
  | remove _ _ _ hs | skip _ _ _ _ hs => rw [hs]; simp [State.setPc, State.setWaiting, hu]

/-! ## Adding -/

/-- The thread is past the CAS of an add of `d` to `old`, or has returned from it
with its sum. -/
def AddPast (d old : Word) (p : Pc T) : Prop :=
  p = .addCheck d old ∨ p = .addWake d old ∨ (∃ x, p = .addPost d old x) ∨ p = .addUnlock d old ∨
    (p = .client (some (old + d)) ∧ Pc.Exact d old)

theorem step_addPast {a : Act} {d old : Word} (hi : Inv s) (hs : step t a s = some s')
    (hp : AddPast d old (s.pc t)) (hin : ∀ r, s.pc t ≠ .client r) : AddPast d old (s'.pc t) := by
  have hok := hi.ok t
  unfold step at hs
  split at hs
  · cases hs
  cases a with
  | post =>
      cases hs
      exact hp
  | call c =>
      simp only at hs
      cases hs
  | step ch =>
      rcases hp with hp | hp | ⟨x, hp⟩ | hp | ⟨hp, -⟩
      · simp only [hp, counterAdd] at hs
        split at hs <;> cases hs
        · simp only [State.setPc, Function.update_self]
          split
          · exact Or.inr (Or.inl rfl)
          · exact Or.inr (Or.inr (Or.inr (Or.inl rfl)))
        · exact Or.inl hp
      · simp only [hp, counterAdd] at hs
        split at hs <;> cases hs
        · exact Or.inr (Or.inr (Or.inr (Or.inl (by simp [State.setPc]))))
        · exact Or.inr (Or.inr (Or.inl ⟨_, by simp [State.setPc]; rfl⟩))
      · simp only [hp, counterAdd] at hs
        cases hs
        exact Or.inr (Or.inl (by simp [State.setPc]))
      · simp only [hp, counterAdd] at hs
        cases hs
        rw [hp] at hok
        exact Or.inr (Or.inr (Or.inr (Or.inr ⟨by simp [State.setPc], hok.2⟩)))
      · exact (hin _ hp).elim

theorem addPast_of_runs {d old : Word} {s₁ s₂ : State T} (h : Reachable v s₁)
    (hp : AddPast d old (s₁.pc t)) (hrun : Runs (Inside t) s₁ s₂) : AddPast d old (s₂.pc t) := by
  refine Reach.invariant hrun (I := fun s => AddPast d old (s.pc t)) hp ?_
  intro i s₃ s₄ hr hp hin hs
  have hi := (h.append hr).inv
  by_cases hut : i.1 = t
  · subst hut
    exact step_addPast hi hs hp hin
  · rw [(step_effect (hi.ok i.1) hs).2.pc_of_ne (Ne.symm hut)]
    exact hp

/-- The value changes only by the CAS of an add, which adds to the value that it
finds. -/
theorem Effect.value_cases (he : Effect t s s') : s'.value = s.value ∨
    ∃ d, s.pc t = .addCas d s.value ∧ s'.value = s.value + d ∧ s'.pc t = .addCheck d s.value := by
  cases he with
  | move p hm => exact Or.inl hm.value
  | cas d old hpc hv hs =>
      subst hv
      refine Or.inr ⟨d, hpc, ?_, ?_⟩ <;> simp [hs, State.setPc]
  | post hs | crash _ _ _ _ hs | wakePost _ _ _ _ hs | wake _ _ _ _ _ _ hs | init _ _ hs
  | link _ _ _ _ hs | noLink _ _ _ _ hs | remove _ _ _ hs | skip _ _ _ _ hs =>
      left
      rw [hs]
      try rfl

theorem Effect.waited_mono (he : Effect t s s') (hw : s.waited = true) : s'.waited = true := by
  cases he with
  | move p hm => exact hm.waited hw
  | post hs | cas _ _ _ _ hs | crash _ _ _ _ hs | wakePost _ _ _ _ hs | wake _ _ _ _ _ _ hs
  | init _ _ hs | link _ _ _ _ hs | noLink _ _ _ _ hs | remove _ _ _ hs | skip _ _ _ _ hs =>
      rw [hs]
      exact hw

/-- A check fails exactly if the sum is out of range or the add raises the value
from 0 although a wait has begun. -/
theorem Inv.check_crashes {ch : Choice} {d old : Word} (hi : Inv s) (hpc : s.pc t = .addCheck d old)
    (hs : step t (.step ch) s = some s') : s'.crashed = true ↔
      ¬ InRange d old ∨ (old = 0#32 ∧ 0 < d.toInt ∧ s.waited = true) := by
  have hok := hi.ok t
  rw [hpc] at hok
  have hiff : assertsHold d (old + d) s.waited = true ↔
      InRange d old ∧ ¬ (old = 0#32 ∧ 0 < d.toInt ∧ s.waited = true) :=
    assertsHold_iff hok.1 s.waited
  unfold step at hs
  split at hs
  · cases hs
  next hcr =>
  simp only [hpc, counterAdd] at hs
  split at hs
  · next ha =>
      cases hs
      obtain ⟨hr, hn⟩ := hiff.mp ha
      have hfalse : s.crashed ≠ true := hcr
      simp only [State.setPc]
      exact ⟨fun h => (hfalse h).elim, fun h => (h.elim (fun h => h hr) hn).elim⟩
  · next ha =>
      cases hs
      refine ⟨fun _ => ?_, fun _ => rfl⟩
      by_contra hcon
      rw [not_or, not_not] at hcon
      exact ha (hiff.mpr hcon)

/-! ## Waiting -/

/-- The thread is in a call of `nsync_counter_wait`. -/
def InWait : Pc T → Prop
  | .readyStore _ w | .readyLoad _ w | .enqLock w | .enqLoad w | .enqLink _ w | .enqUnlock w
  | .enqDone w | .sleep w | .deqLock w | .deqLoad w | .deqCheck _ w | .deqRemove _ w
  | .deqUnlock _ w => w.counter = true
  | .resultLoad => True
  | _ => False

/-- The thread has found the value 0 and is going to return 0, or has done so. -/
def SawZero : Pc T → Prop
  | .deqCheck value _ | .deqRemove value _ | .deqUnlock value _ => value = 0#32
  | .client r => r = some 0#32
  | _ => False

/-- A step inside `nsync_counter_wait` stays there or returns, and sees a 0 only
when the value is 0. -/
theorem step_inWait {a : Act} (hs : step t a s = some s') (hw : InWait (s.pc t)) :
    (InWait (s'.pc t) ∨ ∃ r, s'.pc t = .client r) ∧
      (SawZero (s'.pc t) → SawZero (s.pc t) ∨ s.value = 0#32) := by
  unfold step at hs
  split at hs
  · cases hs
  cases a with
  | post =>
      cases hs
      exact ⟨Or.inl hw, Or.inl⟩
  | call c =>
      simp only at hs
      split at hs
      · next r hpc =>
          rw [hpc] at hw
          exact hw.elim
      · cases hs
  | step ch =>
      simp only at hs
      cases hpc : s.pc t <;> rw [hpc] at hw <;> simp only [hpc] at hs
      case readyStore first w =>
        cases hs
        exact ⟨Or.inl (by simpa [State.setPc, InWait] using hw), by simp [State.setPc, SawZero]⟩
      case readyLoad first w =>
        simp only [counterReadyTime] at hs
        split at hs
        · next h0 =>
            refine ⟨?_, fun _ => Or.inr h0⟩
            cases hs
            cases first
            · exact Or.inl (by simpa [State.setPc, InWait] using hw)
            · exact Or.inr ⟨some 0#32, by simp [waitReady, show w.counter = true from hw,
                State.waitReturns, State.setPc]⟩
        · split at hs
          · cases hs
            exact ⟨Or.inl (by simpa [State.setPc, InWait] using hw), by simp [State.setPc, SawZero]⟩
          · cases hs
            refine ⟨Or.inl ?_, ?_⟩ <;>
              simp [waitNotReady, show w.counter = true from hw, State.setPc, InWait, SawZero]
          · cases hs
            exact ⟨Or.inl (by simpa [State.setPc, InWait] using hw), by simp [State.setPc, SawZero]⟩
          · split at hs <;> cases hs
            exact ⟨Or.inl (by simpa [State.setPc, InWait] using hw), by simp [State.setPc, SawZero]⟩
      case enqLock w =>
        obtain ⟨-, rfl⟩ := lockMu_eq hs
        exact ⟨Or.inl (by simpa [State.setPc, InWait] using hw), by simp [State.setPc, SawZero]⟩
      case enqLoad w =>
        cases hs
        exact ⟨Or.inl (by simpa [State.setPc, InWait] using hw), by simp [State.setPc, SawZero]⟩
      case enqLink value w =>
        simp only [counterEnqueue] at hs
        split at hs <;> cases hs <;>
          exact ⟨Or.inl (by simpa [State.setPc, InWait] using hw), by simp [State.setPc, SawZero]⟩
      case enqUnlock w =>
        cases hs
        exact ⟨Or.inl (by simpa [State.setPc, InWait] using hw), by simp [State.setPc, SawZero]⟩
      case enqDone w =>
        split at hs
        · cases hs
          exact ⟨Or.inl (by simpa [State.setPc, InWait] using hw), by simp [State.setPc, SawZero]⟩
        · split at hs <;> cases hs
          exact ⟨Or.inl (by simpa [State.setPc, InWait] using hw), by simp [State.setPc, SawZero]⟩
      case sleep w =>
        split at hs
        · split at hs <;> cases hs
          exact ⟨Or.inl (by simpa [State.setPc, InWait] using hw), by simp [State.setPc, SawZero]⟩
        · cases hs
          exact ⟨Or.inl (by simpa [State.setPc, InWait] using hw), by simp [State.setPc, SawZero]⟩
      case deqLock w =>
        obtain ⟨-, rfl⟩ := lockMu_eq hs
        exact ⟨Or.inl (by simpa [State.setPc, InWait] using hw), by simp [State.setPc, SawZero]⟩
      case deqLoad w =>
        cases hs
        exact ⟨Or.inl (by simpa [State.setPc, InWait] using hw), fun h => Or.inr (by
          simpa [State.setPc, SawZero] using h)⟩
      case deqCheck value w =>
        simp only [counterDequeue, Option.some.injEq] at hs
        subst hs
        simp only [State.setPc, Function.update_self]
        split <;> exact ⟨Or.inl hw, fun h => Or.inl h⟩
      case deqRemove value w =>
        cases hs
        exact ⟨Or.inl (by simpa [State.setPc, InWait] using hw), fun h => Or.inl (by
          simpa [State.setPc, SawZero] using h)⟩
      case deqUnlock value w =>
        simp only [counterDequeue, Option.some.injEq] at hs
        subst hs
        split
        · next h0 =>
            exact ⟨Or.inr ⟨some 0#32, by simp [waitReady, show w.counter = true from hw,
              State.waitReturns, State.setPc]⟩, fun _ => Or.inl h0⟩
        · refine ⟨Or.inl ?_, ?_⟩ <;>
            simp [waitNotReady, show w.counter = true from hw, State.setPc, InWait, SawZero]
      case resultLoad =>
        cases hs
        refine ⟨Or.inr ⟨some s.value, by simp [State.waitReturns, State.setPc]⟩, fun h => Or.inr ?_⟩
        simpa [State.waitReturns, State.setPc, SawZero] using h
      all_goals exact hw.elim

/-- A wait that has seen the value 0 did so at some moment since `s₁`. -/
theorem sawZero_of_runs {s₁ s₂ : State T} (h : Reachable v s₁) (hw : InWait (s₁.pc t))
    (hn : ¬ SawZero (s₁.pc t)) (hrun : Runs (Inside t) s₁ s₂) (hz : SawZero (s₂.pc t)) :
    ∃ s₃, Runs (Inside t) s₁ s₃ ∧ Runs (Inside t) s₃ s₂ ∧ s₃.value = 0#32 := by
  have key : (InWait (s₂.pc t) ∨ ∃ r, s₂.pc t = .client r) ∧ (SawZero (s₂.pc t) →
      ∃ s₃, Runs (Inside t) s₁ s₃ ∧ Runs (Inside t) s₃ s₂ ∧ s₃.value = 0#32) := by
    refine Reach.invariant hrun (I := fun s => (InWait (s.pc t) ∨ ∃ r, s.pc t = .client r) ∧
      (SawZero (s.pc t) → ∃ s₃, Runs (Inside t) s₁ s₃ ∧ Runs (Inside t) s₃ s ∧ s₃.value = 0#32))
      ⟨Or.inl hw, fun h => (hn h).elim⟩ ?_
    intro i s₃ s₄ hr ⟨hw₃, hz₃⟩ hin hs
    by_cases hut : i.1 = t
    · obtain ⟨u, a⟩ := i
      subst hut
      have hw₃ : InWait (s₃.pc u) := hw₃.resolve_right fun ⟨r, hr⟩ => hin r hr
      obtain ⟨hnext, hsaw⟩ := step_inWait hs hw₃
      refine ⟨hnext, fun h₄ => ?_⟩
      rcases hsaw h₄ with h₃ | h0
      · obtain ⟨s₅, h₁₅, h₅₃, h0⟩ := hz₃ h₃
        exact ⟨s₅, h₁₅, h₅₃.snoc hin hs, h0⟩
      · exact ⟨s₃, hr, Runs.snoc .start hin hs, h0⟩
    · have hpc := (step_effect ((h.append hr).inv.ok i.1) hs).2.pc_of_ne (Ne.symm hut)
      rw [hpc]
      refine ⟨hw₃, fun h₄ => ?_⟩
      obtain ⟨s₅, h₁₅, h₅₃, h0⟩ := hz₃ h₄
      exact ⟨s₅, h₁₅, Runs.snoc (t := i.1) (a := i.2) h₅₃ hin hs, h0⟩
  exact key.2 hz

/-! ## The counter over whole runs -/

/-- An add fails exactly if its sum is out of range or it raises the value from 0
after a wait has begun; one that does not fail adds to the value that it finds
and returns the exact sum, an add of 0 returns the value, and nothing else
changes the value; a wait returns 0 only if the value was 0 during the call; and once a wait has returned 0, the
value is 0 unless some add has just left 0 and is about to fail. -/
theorem counter_adds_and_waits (h : Reachable v s) :
    (∀ t ch d old s', s.pc t = .addCheck d old → step t (.step ch) s = some s' →
      (s'.crashed = true ↔ ¬ InRange d old ∨ (old = 0#32 ∧ 0 < d.toInt ∧ s.waited = true))) ∧
    (∀ t a s', step t a s = some s' → (s.waited = true → s'.waited = true) ∧
      (s'.value = s.value ∨ ∃ d, s.pc t = .addCas d s.value ∧ s'.value = s.value + d ∧
        s'.pc t = .addCheck d s.value)) ∧
    (∀ t d old s' r, s.pc t = .addCheck d old → Runs (Inside t) s s' → s'.pc t = .client r →
      r = some (old + d) ∧ ((old + d).toNat : ℤ) = old.toNat + d.toInt) ∧
    (∀ t ch s', s.pc t = .addLock 0#32 → step t (.step ch) s = some s' →
      s'.pc t = .client (some s.value) ∧ s'.value = s.value ∧ s'.crashed = false) ∧
    (∀ t r s₁ s₂, s.pc t = .client r → step t (.call .wait) s = some s₁ →
      Runs (Inside t) s₁ s₂ → s₂.pc t = .client (some 0#32) →
      ∃ s₃, Runs (Inside t) s₁ s₃ ∧ Runs (Inside t) s₃ s₂ ∧ s₃.value = 0#32) ∧
    (s.zeroReturned = true → s.value = 0#32 ∨
      ∃ t d old, s.pc t = .addCheck d old ∧ s.mu = some t ∧
        ∀ ch s', step t (.step ch) s = some s' → s'.crashed = true) := by
  have hi := h.inv
  refine ⟨fun t ch d old s' hpc hs => hi.check_crashes hpc hs, fun t a s' hs => ?_, ?_, ?_, ?_, ?_⟩
  · have he := (step_effect (hi.ok t) hs).2
    exact ⟨he.waited_mono, he.value_cases⟩
  · intro t d old s' r hpc hrun hret
    have hp : AddPast d old (s'.pc t) := addPast_of_runs h (Or.inl hpc) hrun
    rw [hret] at hp
    rcases hp with hp | hp | ⟨x, hp⟩ | hp | ⟨hp, hexact⟩
    · cases hp
    · cases hp
    · cases hp
    · cases hp
    · cases hp
      exact ⟨rfl, hexact⟩
  · intro t ch s' hpc hs
    unfold step at hs
    split at hs
    · cases hs
    next hcr =>
    simp only [hpc, counterAdd, if_true, Option.some.injEq] at hs
    subst hs
    exact ⟨by simp [State.setPc], rfl, by simpa [State.setPc] using hcr⟩
  · intro t r s₁ s₂ hpc hcall hrun hret
    have h₁ : Reachable v s₁ := Runs.snoc h trivial hcall
    have hpc₁ : s₁.pc t = .readyStore true ⟨true, false⟩ := by
      unfold step at hcall
      split at hcall
      · cases hcall
      · simp only [hpc, Option.some.injEq] at hcall
        rw [← hcall]
        simp [State.setPc]
    exact sawZero_of_runs h₁ (by rw [hpc₁]; rfl) (by rw [hpc₁]; exact id) hrun (by rw [hret]; rfl)
  · intro hz
    refine (hi.returned hz).2.imp id ?_
    rintro ⟨t, d, old, hpc, hfail⟩
    refine ⟨t, d, old, hpc, (hi.owner t).mpr (by rw [hpc]; rfl), fun ch s' hs => ?_⟩
    have hok := hi.ok t
    rw [hpc] at hok
    rw [hi.check_crashes hpc hs]
    by_contra hcon
    rw [not_or, not_not] at hcon
    rw [(assertsHold_iff hok.1 s.waited).mpr hcon] at hfail
    cases hfail

theorem counter_adds_and_waits_from_zero : ∃ s : State (Fin 2), Reachable 0#32 s ∧
    s.zeroReturned = true ∧ s.value = 1#32 ∧ ∃ t d old, s.pc t = .addCheck d old ∧ s.mu = some t ∧
      ∀ ch s', step t (.step ch) s = some s' → s'.crashed = true := by
  obtain ⟨s, hs, hf⟩ := Reach.exists_of_exec_all
    (fun (i : Fin 2 × Act) s => step i.1 i.2 s) (counterNew 0#32)
    [(0, .call .wait), (0, .step .go), (0, .step .go), (1, .call (.add 1#32)),
      (1, .step .go), (1, .step .go), (1, .step .go)]
    (fun s => decide (s.zeroReturned = true ∧ s.value = 1#32)) (by decide +kernel)
  obtain ⟨hz, hv⟩ := of_decide_eq_true hf
  have hcase := (counter_adds_and_waits hs).2.2.2.2.2 hz
  refine ⟨s, hs, hz, hv, hcase.resolve_left fun h0 => ?_⟩
  rw [hv] at h0
  cases h0

/-- After a wait has returned 0 and before any `ASSERT` has failed, the value need
not be 0: an add changes it before it checks. -/
theorem value_after_wait_not_zero : ¬ ∀ (v : Word) (s : State (Fin 2)), Reachable v s →
    s.zeroReturned = true → s.crashed = false → s.value = 0#32 := by
  intro hall
  obtain ⟨s, hs, hf⟩ := Reach.exists_of_exec_all
    (fun (i : Fin 2 × Act) s => step i.1 i.2 s) (counterNew 0#32)
    [(0, .call .wait), (0, .step .go), (0, .step .go), (1, .call (.add 1#32)),
      (1, .step .go), (1, .step .go), (1, .step .go)]
    (fun s => decide (s.zeroReturned = true ∧ s.crashed = false ∧ s.value ≠ 0#32))
    (by decide +kernel)
  obtain ⟨hz, hc, hv⟩ := of_decide_eq_true hf
  exact hv (hall 0#32 s hs hz hc)

end Nsync.Counter
