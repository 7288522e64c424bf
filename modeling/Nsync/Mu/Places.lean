import Nsync.Mu.Removal

/-!
# The lists that a waiter can be on

A waiter is on at most one list, with its flag set, and leaves a queue only by a
counted removal.
-/

namespace Nsync.Mu

open Nsync.Lib

variable {T σ : Type}

/-- The queues, and the local lists `waiters`, `new_waiters` and `wake` of
`nsync_mu_unlock_slow_` and `to_wake_list` of a signaller. -/
inductive Place (T : Type) where
  | mu
  | cv (c : Addr)
  | waiters (u : T)
  | newWaiters (u : T)
  | wake (u : T)
  | toWake (u : T)

def State.list (s : State T σ) : Place T → List T
  | .mu => s.waiters
  | .cv c => (s.cv c).waiters
  | .waiters u => (s.pc u).scanOld
  | .newWaiters u => (s.pc u).scanNew
  | .wake u => (s.pc u).wake
  | .toWake u => (s.pc u).toWake

/-- The waiter of `x` is on the queue of the mutex, which a scanning thread may
have taken for itself, or on that of a condition variable. -/
def State.Queued (s : State T σ) (x : T) : Prop :=
  x ∈ s.waiters ∨ (∃ u, x ∈ (s.pc u).priv) ∨ ∃ c, x ∈ (s.cv c).waiters

def Loc.OnQueue (l : Loc T) : Prop := l.Queued ∨ ∃ c, l = .cvQ c

def Place.loc : Place T → Loc T
  | .mu => .muQ
  | .cv c => .cvQ c
  | .waiters u => .priv u
  | .newWaiters u => .priv u
  | .wake u => .wake u
  | .toWake u => .toWake u

theorem Compat.waiting_of_listed {l : Loc T} {w : Waiter} {p : Phase} (h : Compat l w p)
    (hl : ¬ l.Free) : w.waiting = true := by
  have hnone : l ≠ .none := fun h => hl (Or.inl h)
  have hwoken : l ≠ .woken := fun h => hl (Or.inr h)
  cases p with
  | slowWait => rcases h with h | h <;> simp_all
  | muWait rc => rcases h with h | h | h <;> simp_all
  | cvWait c rc => rcases h with h | h | h | h | h | h <;> simp_all
  | _ => simp_all [Compat]

section

variable [DecidableEq T] {s s' : State T σ} {loc loc' : T → Loc T} {t u x : T}

omit [DecidableEq T] in
theorem Lists.loc_of_mem (h : Lists s loc) {p : Place T} (hx : x ∈ s.list p) :
    loc x = p.loc := by
  cases p with
  | mu => exact (h.muQ.mem x).mp hx
  | cv c => exact ((h.cvQ c).mem x).mp hx
  | waiters u => exact ((h.priv u).mem x).mp (List.mem_append_left _ hx)
  | newWaiters u => exact ((h.priv u).mem x).mp (List.mem_append_right _ hx)
  | wake u => exact ((h.wake u).mem x).mp hx
  | toWake u => exact ((h.toWake u).mem x).mp hx

omit [DecidableEq T] in
theorem Lists.nodup (h : Lists s loc) (p : Place T) : (s.list p).Nodup := by
  cases p with
  | mu => exact h.muQ.nodup
  | cv c => exact (h.cvQ c).nodup
  | waiters u => exact (List.nodup_append.mp (h.priv u).nodup).1
  | newWaiters u => exact (List.nodup_append.mp (h.priv u).nodup).2.1
  | wake u => exact (h.wake u).nodup
  | toWake u => exact (h.toWake u).nodup

omit [DecidableEq T] in
/-- A waiter is on one list only. -/
theorem Lists.place_unique (h : Lists s loc) {p q : Place T} (hp : x ∈ s.list p)
    (hq : x ∈ s.list q) : p = q := by
  have heq : p.loc = q.loc := (h.loc_of_mem hp).symm.trans (h.loc_of_mem hq)
  have hsplit : ∀ u, x ∈ (s.pc u).scanOld → x ∉ (s.pc u).scanNew := by
    intro u hold hnew
    exact (List.nodup_append.mp (h.priv u).nodup).2.2 x hold x hnew rfl
  cases p <;> cases q <;> simp only [Place.loc, reduceCtorEq, Loc.priv.injEq, Loc.cvQ.injEq,
    Loc.wake.injEq, Loc.toWake.injEq] at heq
  case waiters.newWaiters u v =>
    subst heq
    exact (hsplit u hp hq).elim
  case newWaiters.waiters u v =>
    subst heq
    exact (hsplit u hq hp).elim
  all_goals simp [heq]

omit [DecidableEq T] in
theorem Lists.queued_iff (h : Lists s loc) : s.Queued x ↔ (loc x).OnQueue := by
  have hcv : (∃ c, x ∈ (s.cv c).waiters) ↔ ∃ c, loc x = .cvQ c :=
    exists_congr fun c => (h.cvQ c).mem x
  have hpriv : (∃ u, x ∈ (s.pc u).priv) ↔ ∃ u, loc x = .priv u :=
    exists_congr fun u => (h.priv u).mem x
  rw [State.Queued, h.muQ.mem, hpriv, hcv, Loc.OnQueue, Loc.Queued, or_assoc]

omit [DecidableEq T] in
theorem Good.waiting_of_list [Fintype T] {E : Env σ} {C : WaitCondition → Prop}
    (h : Good E C s loc) {p : Place T} (hx : x ∈ s.list p) : (s.wtr x).waiting = true := by
  have hloc := h.lists.loc_of_mem hx
  refine (h.inv.place.compat x).waiting_of_listed ?_
  change ¬ (loc x).Free
  rw [hloc]
  cases p <;> simp [Place.loc, Loc.Free]

/-! ## Removals -/

variable [Fintype T] {E : Env σ} {C : WaitCondition → Prop}

omit [DecidableEq T] in
theorem Good.queued_of_removing (h : Good E C s loc) (hx : (s.pc t).removing t = some x) :
    s.Queued x := by
  have hcompat : Compat (loc t) (s.wtr t).core (s.pc t).phase := h.inv.place.compat t
  unfold Pc.removing at hx
  split at hx <;> cases hx
  · next m k sc old hpc =>
      have hplace := (h.pcs t).place
      obtain ⟨done, rest, hscan⟩ := (h.pcs t).scan sc (by rw [hpc]; rfl)
      rw [hpc] at hplace
      have hrest : x ∈ rest := List.mem_of_mem_head? (hscan.head.trans hplace.1)
      refine Or.inr (Or.inl ⟨t, ?_⟩)
      rw [Pc.priv_of_scan (by rw [hpc]; rfl), hscan.split]
      simp [hrest]
  · next l old rc hpc =>
      rw [hpc] at hcompat
      exact h.lists.queued_iff.mpr (Or.inl (Or.inl hcompat.1))
  · next l old rc hpc =>
      rw [hpc] at hcompat
      exact h.lists.queued_iff.mpr (Or.inr ⟨_, hcompat.1⟩)
  · next l old rc hpc =>
      obtain ⟨c, -, hc⟩ := (h.pcs t).target x (by rw [hpc]; rfl)
      exact Or.inr (Or.inr ⟨c, hc⟩)
  · next l old rc hpc =>
      obtain ⟨c, -, hc⟩ := (h.pcs t).target x (by rw [hpc]; rfl)
      exact Or.inr (Or.inr ⟨c, hc⟩)

omit [DecidableEq T] in
theorem Good.not_queued_of_took (h : Good E C s loc) {q : Pc T} (hx : Pc.Took t x q (s.pc t)) :
    ¬ s.Queued x := by
  rw [h.lists.queued_iff]
  rcases hx with hx | hx | ⟨-, rfl, hx⟩
  · rw [((h.lists.wake t).mem x).mp hx]
    simp [Loc.OnQueue, Loc.Queued]
  · rw [((h.lists.toWake t).mem x).mp hx]
    simp [Loc.OnQueue, Loc.Queued]
  · have hcompat : Compat (loc x) (s.wtr x).core (s.pc x).phase := h.inv.place.compat x
    have hnone : loc x = .none := by
      rcases hx with hx | hx <;> rw [hx] at hcompat <;> exact hcompat.1
    rw [hnone]
    simp [Loc.OnQueue, Loc.Queued]

omit [Fintype T] in
/-- In the protocol, a waiter leaves its queue only together with its count. -/
theorem AStep.count_of_leaves {a a' : AState T σ} (hs : AStep E C t a a') (hp : PlaceInv C a)
    (hq : (a.loc x).OnQueue) (hq' : ¬ (a'.loc x).OnQueue) :
    (a'.wtr x).removeCount = (a.wtr x).removeCount + 1#32 := by
  have hne : a'.loc x ≠ a.loc x := by
    intro heq
    rw [heq] at hq'
    exact hq' hq
  -- a waiter that only changes its place on or off the queues does not leave one
  have hpick : ∀ b, Pick E C t b a' → b.loc = a.loc → False := by
    intro b hpk hb
    cases hpk with
    | pick =>
        refine hq' (Or.inl ?_)
        by_cases hx : a.loc x = .muQ
        · exact Or.inr ⟨t, by simp [hb, hx]⟩
        · simp [hb, hx] at hne
    | giveBack =>
        refine hq' (Or.inl ?_)
        by_cases hx : a.loc x = .priv t
        · exact Or.inl (by simp [hb, hx])
        · simp [hb, hx] at hne
  cases hs with
  | grab m testing _ _ _ _ _ _ hpk => exact (hpick _ hpk rfl).elim
  | retake _ _ _ hpk => exact (hpick _ hpk rfl).elim
  | next hpk => exact (hpick _ hpk rfl).elim
  | acquire m clear _ _ hph | enqueue m clear _ _ hph =>
      rcases eq_or_ne x t with rfl | hxt
      · have hcompat := hp.compat x
        rw [hph] at hcompat
        cases clear <;> simp_all [Compat, Loc.OnQueue, Loc.Queued]
      · simp [hxt] at hne
  | wake y _ hy | cvWake y hy =>
      rcases eq_or_ne x y with rfl | hxy
      · simp [hy, Loc.OnQueue, Loc.Queued] at hq
      · simp [hxy] at hne
  | insert | muEnqueue | cvEnqueue =>
      rcases eq_or_ne x t with rfl | hxt
      · simp [Loc.OnQueue, Loc.Queued] at hq'
      · simp [hxt] at hne
  | transfer xs =>
      by_cases hx : x ∈ xs
      · simp [hx, Loc.OnQueue, Loc.Queued] at hq'
      · simp [hx] at hne
  | dequeue y | select _ y =>
      rcases eq_or_ne x y with rfl | hxy
      · simp [Waiter.removed]
      · simp [hxy] at hne
  | removeSelf | cvRemove =>
      rcases eq_or_ne x t with rfl | hxt
      · simp [Waiter.removed]
      · simp [hxt] at hne
  | _ => exact (hne rfl).elim

end

end Nsync.Mu
