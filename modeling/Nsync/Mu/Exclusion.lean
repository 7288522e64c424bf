import Nsync.Mu.Run

/-!
# Mutual exclusion

In every run without debugging output the lock fields of the mutex word count
the holders, the spinlock has at most one holder, and a wait returns with the
mutex held as it was on entry.
-/

namespace Nsync.Mu

open Nsync.Lib

variable {T σ : Type} [DecidableEq T] [Fintype T]

/-- The word accounts exactly for the holders of the mutex and of its spinlock. -/
structure State.Accounted (s : State T σ) : Prop where
  wlock : s.word &&& muWlock ≠ 0#32 ↔ ∃! u, (s.pc u).lockRole = some .writer
  readers : (s.word &&& muRlockField).toNat / muRlock.toNat =
    (Finset.univ.filter fun u => (s.pc u).lockRole = some .reader).card
  exclusive : s.word &&& muWlock = 0#32 ∨ s.word &&& muRlockField = 0#32
  writer : ∀ u w m, (s.pc u).lockRole = some .writer → (s.pc w).lockRole = some m → w = u
  spinlock : s.word &&& muSpinlock ≠ 0#32 ↔ ∃ u, (s.pc u).spinRole ≠ .no
  spinUnique : ∀ u w, (s.pc u).spinRole ≠ .no → (s.pc w).spinRole ≠ .no → u = w

variable {E : Env σ} {C : WaitCondition → Prop} {s s' : State T σ} {loc : T → Loc T} {t : T}

omit [DecidableEq T] in
theorem Good.accounted (h : Good E C s loc) : s.Accounted := by
  have hsh : Shares (view s.word) fun u => (s.pc u).lockRole := h.inv.lock.shares
  have hsp : Owned (view s.word).spin fun u => (s.pc u).spinRole ≠ .no := h.inv.lock.spin
  refine ⟨?_, ?_, ?_, fun u w m hu hw => hsh.eq_of_writer hu hw, ?_, hsp.unique⟩
  · rw [ne_eq, and_muWlock, Bool.not_eq_false, hsh.write.set_iff]
    constructor
    · rintro ⟨u, hu⟩
      exact ⟨u, hu, fun w hw => hsh.write.unique w u hw hu⟩
    · exact ExistsUnique.exists
  · have hr : muRlock.toNat = 256 := by decide
    rw [and_muRlockField_toNat, hr, Nat.mul_div_cancel_left _ (by omega)]
    exact hsh.read
  · rw [and_muWlock, and_muRlockField]
    cases hw : (view s.word).wlock with
    | false => exact Or.inl rfl
    | true => exact Or.inr (hsh.excl hw)
  · rw [ne_eq, and_muSpinlock, Bool.not_eq_false]
    exact hsp.set_iff

/-! ## A wait from call to return -/

/-- The call is a wait on the mutex or on a condition variable. -/
def Call.IsWait : Call σ → Prop
  | .muWait _ _ => True
  | .cvWait _ _ => True
  | _ => False

omit [DecidableEq T] [Fintype T] in
theorem Call.IsWait.entry {c : Call σ} (hc : c.IsWait) (m : Mode) :
    (c.op (some m)).entry = some m := by
  cases c <;> first | exact hc.elim | rfl

/-- Steps taken while thread `t` has not returned from its call. -/
def Inside (P : T → Act σ → State T σ → Prop) (t u : T) (a : Act σ) (s : State T σ) : Prop :=
  P u a s ∧ ∀ held, s.pc t ≠ .client held

/-- Thread `t` is in a wait that it entered holding the mutex in mode `m`, or has
returned from it holding the mutex in mode `m`. -/
def InWait (m : Mode) (p : Pc T) : Prop :=
  p.op.entry = some m ∨ p = .client (some m)

omit [DecidableEq T] [Fintype T] in
theorem Pc.Next.inWait {q p : Pc T} {m : Mode} (h : q.Next p) (hq : q.op.entry = some m)
    (hp : p ≠ .panicked) : InWait m p := by
  cases p with
  | client held => exact Or.inr (congrArg Pc.client (h m hq))
  | panicked => exact (hp rfl).elim
  | _ => exact Or.inl (by rw [h, hq])

/-- A step keeps thread `t` in its wait or lets it return. -/
theorem step_inWait {u : T} {a : Act σ} {m : Mode} (hg : Good E C s loc)
    (hg' : ∃ loc', Good E C s' loc') (hs : step E u a s = some s') (hw : InWait m (s.pc t))
    (hin : ∀ held, s.pc t ≠ .client held) : InWait m (s'.pc t) := by
  obtain ⟨loc', hg'⟩ := hg'
  have hentry : (s.pc t).op.entry = some m := hw.resolve_right (hin _)
  have hpanic : s'.pc t ≠ .panicked := by
    intro hp
    have hok := (hg'.pcs t).ok
    rwa [hp] at hok
  by_cases hut : u = t
  · subst hut
    cases a with
    | post =>
        cases hs
        exact hw
    | call c =>
        simp only [step] at hs
        cases hs
    | step ch =>
        obtain ⟨p, hp, hnext⟩ := step_moves (hg.pcs u).ok hs
        rw [hp, Function.update_self] at hpanic ⊢
        exact hnext.inWait hentry hpanic
  · obtain ⟨p, hp, -⟩ := step_op (hg.pcs u).ok hs
    rw [hp, Function.update_of_ne (Ne.symm hut)]
    exact hw

omit [Fintype T] in
theorem callStep_inWait {a : Call σ} {m : Mode} (hpc : s.pc t = .client (some m)) (ha : a.IsWait)
    (hs : step E t (.call a) s = some s') : InWait m (s'.pc t) := by
  simp only [step, hpc] at hs
  obtain ⟨p, hp, hop⟩ := callStep_op hpc hs
  rw [hp, Function.update_self]
  exact Or.inl (by rw [hop, ha.entry])

/-- Any threads, fewer than the reader field can count, call the functions of
`nsync_mu` and `nsync_cv` in any order, release only what they hold, and find
their deadlines expired or their notes notified at any moment.  In every state
the word accounts for the holders; and a thread that enters a wait with the
mutex held in mode `m` returns from it with the mutex held in mode `m`. -/
theorem accounted_and_wait_restores (hcard : Fintype.card T < 2 ^ 24) {x : σ}
    (h : Reachable E (fun _ a _ => a.NoDebug) x s) :
    s.Accounted ∧ ∀ t m c s₁ s₂ held, s.pc t = .client (some m) → c.IsWait →
      step E t (.call c) s = some s₁ → Runs E (Inside (fun _ a _ => a.NoDebug) t) s₁ s₂ →
      s₂.pc t = .client held → held = some m := by
  have hgood : ∀ s : State T σ, Reachable E (fun _ a _ => a.NoDebug) x s →
      ∃ loc, Good E (fun _ => True) s loc := by
    intro s hs
    exact (hs.good_of_noDebug fun t a s hP => ⟨a.condIn_true, hP, fits_of_card hcard t s⟩).1
  refine ⟨(hgood s h).choose_spec.accounted, ?_⟩
  intro t m c s₁ s₂ held hpc hc hcall hrun hret
  have hnd : (Act.call c).NoDebug := by cases c <;> first | exact hc.elim | trivial
  have h₁ : Reachable E (fun _ a _ => a.NoDebug) x s₁ := Runs.snoc h hnd hcall
  have hw : InWait m (s₂.pc t) := by
    refine hrun.invariant (I := fun s => InWait m (s.pc t)) (callStep_inWait hpc hc hcall) ?_
    intro u a s₃ s₄ hr hw hP hs
    have h₃ := h₁.append (hr.mono fun _ _ _ hP => hP.1)
    exact step_inWait (hgood s₃ h₃).choose_spec (hgood s₄ (Runs.snoc h₃ hP.1 hs)) hs hw hP.2
  rw [hret] at hw
  rcases hw with hw | hw
  · cases hw
  · cases hw
    rfl

/-- A writer holds the mutex and a second one sleeps on its queue. -/
theorem accounted_two_writers : ∃ s : State (Fin 2) Bool, Fintype.card (Fin 2) < 2 ^ 24 ∧
    Reachable flagEnv (fun _ a _ => a.NoDebug) false s ∧
    s.pc 0 = .client (some .writer) ∧ s.waiters = [1] ∧ s.Accounted := by
  obtain ⟨s, hs, hf⟩ := Reachable.exists_of_exec (T := Fin 2) (E := flagEnv)
    (P := fun _ a _ => a.NoDebug) (x := false)
    ([(0, .call (.lock .writer))] ++ goOn 0 1 ++ [(1, .call (.lock .writer))] ++ goOn 1 8)
    (fun s => decide (s.pc 0 = .client (some .writer) ∧ s.waiters = [1])) (by decide +kernel)
  have hcard : Fintype.card (Fin 2) < 2 ^ 24 := by decide
  obtain ⟨hpc, hq⟩ := of_decide_eq_true hf
  exact ⟨s, hcard, hs, hpc, hq, (accounted_and_wait_restores hcard hs).1⟩

end Nsync.Mu
