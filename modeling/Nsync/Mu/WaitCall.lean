import Nsync.Mu.Run

/-!
# The conditional wait that a thread is in

A call of `nsync_mu_wait_with_deadline` calls the lock and unlock functions of the
mutex, which return to it with its locals unchanged.
-/

namespace Nsync.Mu

open Nsync.Lib

variable {T σ : Type}

def LockCont.muWait? : LockCont → Option MuWait
  | .muWait l => some l
  | _ => none

def UnlockCont.muWait? : UnlockCont → Option MuWait
  | .muWait l => some l
  | _ => none

/-- The locals of the conditional wait that a thread is in, also while it is in a
lock or unlock function that the wait has called. -/
def Pc.muWait? : Pc T → Option MuWait
  | .muWait l _ => some l
  | .lock _ _ k _ => k.muWait?
  | .lockSlow _ k _ => k.muWait?
  | .unlock _ k _ => k.muWait?
  | .unlockSlow _ k _ => k.muWait?
  | _ => none

theorem Pc.op_of_muWait? {p : Pc T} {l : MuWait} (h : p.muWait? = some l) :
    p.op = .muWait l.entry := by
  cases p with
  | muWait l' q =>
      cases h
      rfl
  | lock m b k q | lockSlow l' k q | unlock kind k q | unlockSlow m k q =>
      cases k <;> cases h
      rfl
  | _ => cases h

/-- The thread is in a function that its conditional wait with the locals `l` has
called, or that function has returned to the place `q` of the wait. -/
def Pc.BackIn (l : MuWait) (q : MuWaitPc) (p : Pc T) : Prop :=
  p.muWait? = some l ∧ ∀ l' q', p = .muWait l' q' → q' = q

variable [DecidableEq T]

section

variable {E : Env σ} {C : WaitCondition → Prop} {s s' : State T σ} {t : T} {act : Act σ} {l : MuWait}

/-- A function that the wait has called returns to it with its locals. -/
def Back (t : T) (l₀ : Option MuWait) (q : MuWaitPc) (s' : State T σ) : Prop :=
  ∀ l, (s'.pc t).muWait? = some l → l₀ = some l ∧ (s'.pc t).BackIn l q

theorem Back.setPc {s₁ : State T σ} {p : Pc T} {q₀ : MuWaitPc} (hp : ∀ l q, p ≠ .muWait l q) :
    Back t p.muWait? q₀ (s₁.setPc t p) := by
  intro l h
  rw [State.setPc_self] at h ⊢
  exact ⟨h, h, fun l' q hq => (hp l' q hq).elim⟩

theorem Back.afterLock (s₁ : State T σ) (m : Mode) (k : LockCont) :
    Back t k.muWait? .evalCondition (afterLock s₁ t m k) := by
  intro l h
  cases k <;> simp only [Nsync.Mu.afterLock, State.setPc_self] at h ⊢
  · cases h
  · exact ⟨h, h, by rintro l' q ⟨⟩; rfl⟩
  · cases h

theorem Back.afterUnlock (s₁ : State T σ) (k : UnlockCont) :
    Back t k.muWait? .waitLoad (afterUnlock s₁ t k) := by
  intro l h
  rw [afterUnlock_eq, State.setPc_self] at h ⊢
  cases k with
  | ret => cases h
  | muWait l' => exact ⟨h, h, by rintro l' q ⟨⟩; rfl⟩
  | cvWait l' => cases h

theorem Back.client {s₁ : State T σ} {k : Option MuWait} {q : MuWaitPc} {p : Pc T}
    (hp : p.muWait? = none) : Back t k q (s₁.setPc t p) := by
  intro l h
  rw [State.setPc_self, hp] at h
  cases h

theorem muLock_back (m : Mode) (b : Bool) (k : LockCont) (p : LockPc) :
    Back t k.muWait? .evalCondition (muLock s t m b k p) := by
  cases p <;> simp only [muLock, startLockSlow] <;> repeat' split
  all_goals
    first
    | exact .afterLock _ _ _
    | exact .client rfl
    | exact .setPc (p := .lock _ _ _ _) (by simp)
    | exact .setPc (p := .lockSlow _ _ _) (by simp)

theorem muLockSlow_back {l₀ : LockSlow} {k : LockCont} {p : LockSlowPc}
    (hs : muLockSlow s t l₀ k p = some s') : Back t k.muWait? .evalCondition s' := by
  rcases p with _ | _ | _ | _ | ⟨_ | _⟩ | _ | _ <;> simp only [muLockSlow, semP] at hs <;>
    repeat' split at hs
  all_goals
    cases hs <;>
    first
    | exact .setPc (p := .lockSlow _ _ _) (by simp)
    | exact .afterLock _ _ _

theorem muUnlock_back (kind : UnlockKind) (k : UnlockCont) (p : UnlockPc) :
    Back t k.muWait? .waitLoad (muUnlock s t kind k p) := by
  cases p <;> simp only [muUnlock] <;> repeat' split
  all_goals
    first
    | exact .afterUnlock _ _
    | exact .client rfl
    | exact .setPc (p := .unlock _ _ _) (by simp)
    | exact .setPc (p := .unlockSlow _ _ _) (by simp)

theorem muUnlockSlow_back (m : Mode) (k : UnlockCont) (p : UnlockSlowPc T) :
    Back t k.muWait? .waitLoad (muUnlockSlow E s t m k p) := by
  obtain ⟨q, hq, rfl | rfl | ⟨p', rfl⟩⟩ := muUnlockSlow_goes (E := E) (s := s) (t := t) m k p
  · intro l h
    rw [hq, Function.update_self] at h ⊢
    have := Back.afterUnlock (t := t) s k l
    rw [afterUnlock_eq, State.setPc_self] at this
    exact this h
  · intro l h
    rw [hq, Function.update_self] at h
    cases h
  · intro l h
    rw [hq, Function.update_self] at h ⊢
    exact ⟨h, h, fun l' q hq => nomatch hq⟩

/-- How a thread comes to be in a conditional wait: it calls the function, takes
a step in it, or is in a function that the wait has called. -/
theorem step_muWait? {w : Waiter} (hok : (s.pc t).Ok C w) (hs : step E t act s = some s')
    (h' : (s'.pc t).muWait? = some l) :
    (∃ c e m, act = .call (.muWait c e) ∧ s.pc t = .client (some m) ∧
      callStep s t (some m) (.muWait c e) = some s') ∨
    (∃ ch l₀ p, act = .step ch ∧ s.pc t = .muWait l₀ p ∧
      muWaitWithDeadline E s t l₀ ch p = some s') ∨
    ((s.pc t).muWait? = some l ∧ (∀ l₀ p, s.pc t ≠ .muWait l₀ p) ∧
      ((s'.pc t).BackIn l .evalCondition ∨ l.haveLock = false ∧ (s'.pc t).BackIn l .waitLoad)) ∨
    act = .post := by
  have hunlock : ∀ {m : Mode} {k : UnlockCont}, k.Ok C m w → k.muWait? = some l →
      l.haveLock = false := by
    intro m k hk hl
    cases k <;> cases hl
    exact hk.2.2.2.1
  cases act with
  | post => exact Or.inr (Or.inr (Or.inr rfl))
  | call c =>
      simp only [step] at hs
      split at hs
      · next held hpc =>
          obtain ⟨p, hp, hop⟩ := callStep_op hpc hs
          rw [hp, Function.update_self] at h'
          have hop' := Pc.op_of_muWait? h'
          cases c <;> rw [hop] at hop' <;> try cases hop'
          next c e =>
            have hs' := hs
            simp only [callStep] at hs'
            cases held <;> cases hs'
            exact Or.inl ⟨c, e, _, rfl, hpc, hs⟩
      · cases hs
  | step ch =>
      have hop : (s.pc t).op = .muWait l.entry := by
        obtain ⟨p, hp, hcase⟩ := step_op hok hs
        rw [hp, Function.update_self] at h'
        have hop' := Pc.op_of_muWait? h'
        rcases hcase with hcase | hcase | ⟨c, held, hc, -⟩
        · exact hcase.symm.trans hop'
        · cases hcase.symm.trans hop'
        · cases hc
      simp only [step] at hs
      cases hpc : s.pc t <;> simp only [hpc, Option.some.injEq] at hs hop
      case muWait l₀ p => exact Or.inr (Or.inl ⟨ch, l₀, p, rfl, rfl, hs⟩)
      case lock m b k p =>
        subst hs
        obtain ⟨hk, hb⟩ := muLock_back m b k p l h'
        exact Or.inr (Or.inr (Or.inl ⟨hk, by simp, Or.inl hb⟩))
      case lockSlow l₀ k p =>
        obtain ⟨hk, hb⟩ := muLockSlow_back hs l h'
        exact Or.inr (Or.inr (Or.inl ⟨hk, by simp, Or.inl hb⟩))
      case unlock kind k p =>
        subst hs
        obtain ⟨hk, hb⟩ := muUnlock_back kind k p l h'
        rw [hpc] at hok
        exact Or.inr (Or.inr (Or.inl ⟨hk, by simp, Or.inr ⟨hunlock hok.1 hk, hb⟩⟩))
      case unlockSlow m k p =>
        subst hs
        obtain ⟨hk, hb⟩ := muUnlockSlow_back m k p l h'
        rw [hpc] at hok
        exact Or.inr (Or.inr (Or.inl ⟨hk, by simp, Or.inr ⟨hunlock hok.1 hk, hb⟩⟩))
      all_goals cases hop

/-- The places of a conditional wait that the functions it calls return to, and
its beginning. -/
def MuWaitPc.entry : MuWaitPc → Bool
  | .loadWord | .evalCondition | .waitLoad => true
  | _ => false

/-- A thread at another place of a conditional wait got there by a step of that
wait. -/
theorem step_inMuWait {w : Waiter} (hok : (s.pc t).Ok C w) (hs : step E t act s = some s')
    {q : MuWaitPc} (hpc' : s'.pc t = .muWait l q) (hq : q.entry = false) :
    (∃ ch l₀ p, act = .step ch ∧ s.pc t = .muWait l₀ p ∧
      muWaitWithDeadline E s t l₀ ch p = some s') ∨ act = .post := by
  rcases step_muWait? hok hs (congrArg Pc.muWait? hpc') with
    ⟨c, e, m, -, -, hcall⟩ | hstep | ⟨-, -, hback⟩ | hpost
  · cases hcall
    rw [State.setPc_self] at hpc'
    cases hpc'
    cases hq
  · exact Or.inl hstep
  · rcases hback with hback | ⟨-, hback⟩
    · obtain rfl := hback.2 l q hpc'
      cases hq
    · obtain rfl := hback.2 l q hpc'
      cases hq
  · exact Or.inr hpost

/-! ## Return -/

theorem muLock_stays {m : Mode} {p : LockPc} {held : Option Mode} :
    (muLock s t m false (.muWait l) p).pc t ≠ .client held := by
  cases p <;> simp only [muLock, startLockSlow, afterLock] <;> repeat' split
  all_goals
    rw [State.setPc_self]
    simp_all

theorem muLockSlow_stays {l₀ : LockSlow} {p : LockSlowPc} {held : Option Mode}
    (hs : muLockSlow s t l₀ (.muWait l) p = some s') : s'.pc t ≠ .client held := by
  rcases p with _ | _ | _ | _ | ⟨_ | _⟩ | _ | _ <;>
    simp only [muLockSlow, semP, afterLock] at hs <;> repeat' split at hs
  all_goals
    cases hs <;>
    · rw [State.setPc_self]
      simp

theorem muUnlock_stays {kind : UnlockKind} {p : UnlockPc} {held : Option Mode} :
    (muUnlock s t kind (.muWait l) p).pc t ≠ .client held := by
  cases p <;> simp only [muUnlock, afterUnlock] <;> repeat' split
  all_goals
    rw [State.setPc_self]
    simp

theorem muUnlockSlow_stays {m : Mode} {p : UnlockSlowPc T} {held : Option Mode} :
    (muUnlockSlow E s t m (.muWait l) p).pc t ≠ .client held := by
  obtain ⟨q, hq, rfl | rfl | ⟨p', rfl⟩⟩ :=
    muUnlockSlow_goes (E := E) (s := s) (t := t) m (.muWait l) p
  all_goals
    rw [hq, Function.update_self]
    simp [UnlockCont.pc]

theorem muWait_stays {ch : Choice} {p : MuWaitPc} {held : Option Mode}
    (hs : muWaitWithDeadline E s t l ch p = some s') (hp : p ≠ .evalCondition) :
    s'.pc t ≠ .client held := by
  rcases p with _ | _ | _ | _ | ⟨_ | _⟩ | ⟨_ | _⟩ | _ | _ | _ | _ | _ | _ | _ | _ | ⟨_, _ | _⟩ |
    _ | _ | _ | _ <;> simp only [muWaitWithDeadline, startLockSlow] at hs
  case evalCondition => exact (hp rfl).elim
  case sem =>
    simp only [semWaitWithCancel, semP] at hs
    repeat' split at hs
    all_goals
      cases hs <;>
      · rw [State.setPc_self]
        simp
  all_goals repeat' split at hs
  all_goals
    cases hs
    rw [State.setPc_self]
    simp

/-- A conditional wait returns from its evaluation of the condition. -/
theorem muWait_returns {w : Waiter} {held : Option Mode} (hok : (s.pc t).Ok C w)
    (hs : step E t act s = some s') (hl : (s.pc t).muWait? = some l)
    (hret : s'.pc t = .client held) :
    s.pc t = .muWait l .evalCondition ∧
      ∃ ch, muWaitWithDeadline E s t l ch .evalCondition = some s' := by
  cases act with
  | post =>
      cases hs
      rw [show s.pc t = .client held from hret] at hl
      cases hl
  | call c =>
      simp only [step] at hs
      split at hs
      · next held' hpc =>
          rw [hpc] at hl
          cases hl
      · cases hs
  | step ch =>
      simp only [step] at hs
      cases hpc : s.pc t with
      | muWait l₀ p =>
          rw [hpc] at hl hs
          obtain rfl := Option.some.inj hl
          rcases eq_or_ne p .evalCondition with rfl | hp
          · exact ⟨rfl, ch, hs⟩
          · exact (muWait_stays hs hp hret).elim
      | lock m b k p =>
          rw [hpc] at hl hs hok
          cases k <;> cases hl
          cases b with
          | true => cases hok.2.1 rfl
          | false =>
              cases hs
              exact (muLock_stays hret).elim
      | lockSlow l₀ k p =>
          rw [hpc] at hl hs
          cases k <;> cases hl
          exact (muLockSlow_stays hs hret).elim
      | unlock kind k p =>
          rw [hpc] at hl hs
          cases k <;> cases hl
          cases hs
          exact (muUnlock_stays hret).elim
      | unlockSlow m k p =>
          rw [hpc] at hl hs
          cases k <;> cases hl
          cases hs
          exact (muUnlockSlow_stays hret).elim
      | _ =>
          rw [hpc] at hl
          cases hl

end

end Nsync.Mu
