import Nsync.Counter.Step

/-!
# What the steps of a counter do

The arithmetic of `nsync_counter_add`, and the effect of each step on the value,
the list of waiters and the records on it.
-/

namespace Nsync.Counter

open Nsync.Lib

variable {T : Type}

namespace Pc

/-- The thread holds `counter_mu`. -/
def holds : Pc T → Bool
  | .addLoad _ | .addCas _ _ | .addCheck _ _ | .addWake _ _ | .addPost _ _ _ | .addUnlock _ _ => true
  | .enqLoad _ | .enqLink _ _ | .enqUnlock _ => true
  | .deqLoad _ | .deqCheck _ _ | .deqRemove _ _ | .deqUnlock _ _ => true
  | _ => false

/-- The thread is in a wait and has set `waited`. -/
def begun : Pc T → Bool
  | .readyStore first _ => !first
  | .readyLoad _ _ | .enqLock _ | .enqLoad _ | .enqLink _ _ | .enqUnlock _ | .enqDone _ => true
  | .sleep _ | .deqLock _ | .deqLoad _ | .deqCheck _ _ | .deqRemove _ _ | .deqUnlock _ _ => true
  | .resultLoad => true
  | _ => false

/-- The thread's record was queued and the thread has not taken it off. -/
def queued : Pc T → Bool
  | .enqUnlock w | .enqDone w | .sleep w | .deqLock w | .deqLoad w | .deqCheck _ w
  | .deqRemove _ w => w.enqueued
  | .readyStore first w | .readyLoad first w => !first && w.enqueued
  | _ => false

/-- The thread has stored a new value and has yet to look at the waiters. -/
def clearing : Pc T → Bool
  | .addCheck _ _ | .addWake _ _ | .addPost _ _ _ => true
  | _ => false

/-- The sum of an add is exact. -/
def Exact (d old : Word) : Prop := ((old + d).toNat : ℤ) = old.toNat + d.toInt

/-- What the holder of the mutex knows, where `v` is the value and `b` says
whether its own record is marked as waiting. -/
def Ok (v : Word) (b : Bool) : Pc T → Prop
  | .addLoad d => d ≠ 0#32
  | .addCas d old => d ≠ 0#32 ∧ v = old
  | .addCheck d old => d ≠ 0#32 ∧ v = old + d
  | .addWake d old | .addPost d old _ => v = old + d ∧ Exact d old ∧ v = 0#32
  | .addUnlock d old => v = old + d ∧ Exact d old
  | .enqLink value _ => v = value
  | .enqUnlock w => w.enqueued = true ↔ v ≠ 0#32
  | .deqCheck value _ | .deqUnlock value _ => v = value
  | .deqRemove value _ => v = value ∧ b = true
  | _ => True

theorem ok_of_not_holds {p : Pc T} (h : p.holds = false) (v : Word) (b : Bool) : p.Ok v b := by
  cases p <;> trivial

end Pc

/-! ## The arithmetic of an add -/

/-- The integer sum is a possible value. -/
def InRange (d old : Word) : Prop := 0 ≤ (old.toNat : ℤ) + d.toInt ∧ (old.toNat : ℤ) + d.toInt < 2 ^ 32

theorem exact_iff_inRange (d old : Word) : Pc.Exact d old ↔ InRange d old := by
  have hold := old.isLt
  have hd := d.isLt
  have hsum := (old + d).isLt
  rw [Pc.Exact, InRange, BitVec.toNat_add, BitVec.toInt_eq_toNat_cond]
  split <;> omega

theorem add_eq_self_iff (d old : Word) : old + d = d ↔ old = 0#32 :=
  add_eq_right

/-- The `ASSERT`s hold exactly if the sum is in range and the add does not raise
the value from 0 after a wait. -/
theorem assertsHold_iff {d old : Word} (hd : d ≠ 0#32) (b : Bool) :
    assertsHold d (old + d) b = true ↔
      InRange d old ∧ ¬ (old = 0#32 ∧ 0 < d.toInt ∧ b = true) := by
  have hold := old.isLt
  have hdlt := d.isLt
  have hsub : old + d - d = old := add_sub_cancel_right old d
  have hne : d.toNat ≠ 0 := fun h => hd (BitVec.eq_of_toNat_eq h)
  have hint := BitVec.toInt_eq_toNat_cond d
  unfold assertsHold
  rw [hsub]
  by_cases hpos : 0 < d.toInt
  · have hlt : old < old + d ↔ InRange d old := by
      rw [BitVec.lt_def, BitVec.toNat_add, InRange]
      rw [hint] at hpos ⊢
      split at hpos <;> split <;> omega
    simp only [hpos, if_true, Bool.and_eq_true, Bool.or_eq_true, decide_eq_true_eq, hlt, true_and]
    rw [ne_eq, add_eq_self_iff]
    cases b <;> simp [and_comm]
  · have hlt : old + d < old ↔ InRange d old := by
      rw [BitVec.lt_def, BitVec.toNat_add, InRange]
      rw [hint] at hpos ⊢
      split at hpos <;> split <;> omega
    simp [hpos, hlt]

/-- An add that leaves zero after a wait fails. -/
theorem asserts_fail_from_zero {d : Word} (hd : d ≠ 0#32) :
    assertsHold d (0#32 + d) true = false := by
  rw [← Bool.not_eq_true, assertsHold_iff hd, InRange]
  rintro ⟨⟨hr, -⟩, hn⟩
  have hne : d.toInt ≠ 0 := fun h => hd (BitVec.eq_of_toInt_eq (by simpa using h))
  refine hn ⟨rfl, ?_, rfl⟩
  have : (0#32 : Word).toNat = 0 := rfl
  omega

/-! ## What a step can do -/

variable [DecidableEq T]

/-- The mutex follows the program counter of `t`. -/
inductive MuMove (s s' : State T) (t : T) (p : Pc T) : Prop where
  | keep (hm : s'.mu = s.mu) (hp : p.holds = (s.pc t).holds)
  | take (hf : s.mu = none) (hm : s'.mu = some t) (hq : (s.pc t).holds = false)
      (hp : p.holds = true)
  | drop (hm : s'.mu = none) (hq : (s.pc t).holds = true) (hp : p.holds = false)

/-- A step that leaves the value, the list and the records alone. -/
structure Move (s s' : State T) (t : T) (p : Pc T) : Prop where
  pc : s'.pc = Function.update s.pc t p
  value : s'.value = s.value
  waiters : s'.waiters = s.waiters
  waiting : s'.waiting = s.waiting
  posts : s'.posts = s.posts
  crashed : s'.crashed = s.crashed
  mu : MuMove s s' t p
  waited : s.waited = true → s'.waited = true
  begun : p.begun = true → (s.pc t).begun = true ∨ s'.waited = true
  queued : p.queued = (s.pc t).queued
  ok : p.Ok s.value (s.waiting t)
  clearing : (s.pc t).clearing = true → p.clearing = true ∨ s.waiters = [] ∨ s.value ≠ 0#32
  doomed : ∀ d old, s.pc t = .addCheck d old → assertsHold d (old + d) s.waited = true
  post : ∀ d old x, p ≠ .addPost d old x ∧ s.pc t ≠ .addPost d old x
  returned : s'.zeroReturned = true → s.zeroReturned = true ∨ (s.value = 0#32 ∧
    (s.pc t).begun = true)
  reported : s'.zeroReported = true → s.zeroReported = true ∨ (s.value = 0#32 ∧
    (s.pc t).begun = true)

/-- What a step of `t` can do. -/
inductive Effect (t : T) (s s' : State T) : Prop where
  | post (hs : s' = { s with sem := s'.sem })
  | move (p : Pc T) (hm : Move s s' t p)
  | cas (d old : Word) (hpc : s.pc t = .addCas d old) (hv : s.value = old)
      (hs : s' = { s.setPc t (.addCheck d old) with value := old + d })
  | crash (d old : Word) (hpc : s.pc t = .addCheck d old)
      (ha : assertsHold d (old + d) s.waited = false) (hs : s' = { s with crashed := true })
  | wake (d old : Word) (x : T) (rest : List T) (hpc : s.pc t = .addWake d old)
      (hw : s.waiters = x :: rest)
      (hs : s' = { (s.setWaiting x false).setPc t (.addPost d old x) with waiters := rest })
  | wakePost (d old : Word) (x : T) (hpc : s.pc t = .addPost d old x)
      (hs : s' = { s.setPc t (.addWake d old) with
        sem := s'.sem
        posts := Function.update s.posts x (s.posts x + 1) })
  | init (w : Wait) (hpc : s.pc t = .readyLoad true w)
      (hs : s' = (s.setWaiting t false).setPc t (.enqLock w))
  | link (value : Word) (w : Wait) (hpc : s.pc t = .enqLink value w) (hv : value ≠ 0#32)
      (hs : s' = { (s.setWaiting t true).setPc t (.enqUnlock { w with enqueued := true }) with
        waiters := s.waiters ++ [t]
        posts := Function.update s.posts t 0 })
  | noLink (value : Word) (w : Wait) (hpc : s.pc t = .enqLink value w) (hv : value = 0#32)
      (hs : s' = (s.setWaiting t false).setPc t (.enqUnlock { w with enqueued := false }))
  | remove (value : Word) (w : Wait) (hpc : s.pc t = .deqRemove value w)
      (hs : s' = { (s.setWaiting t false).setPc t (.deqUnlock value w) with
        waiters := s.waiters.erase t })
  | skip (value : Word) (w : Wait) (hpc : s.pc t = .deqCheck value w) (hw : s.waiting t = false)
      (hs : s' = s.setPc t (.deqUnlock value w))

variable {s s' : State T} {t : T}

/-- A step from a place that is far from the mutex and the list. -/
theorem Move.simple {p : Pc T} (hs : s' = s.setPc t p) (hq : (s.pc t).holds = false)
    (hp : p.holds = false) (hb : p.begun = true → (s.pc t).begun = true)
    (hqd : p.queued = (s.pc t).queued) : Move s s' t p := by
  subst hs
  have hnc : ∀ q : Pc T, q.holds = false → q.clearing = false := by
    intro q hq
    cases q <;> first | rfl | cases hq
  refine ⟨rfl, rfl, rfl, rfl, rfl, rfl, .keep rfl (by rw [hp, hq]), id, fun h => Or.inl (hb h), hqd,
    Pc.ok_of_not_holds hp _ _, ?_, ?_, ?_, Or.inl, Or.inl⟩
  · rw [hnc _ hq]
    exact fun h => Bool.noConfusion h
  · intro d old h
    rw [h] at hq
    cases hq
  · intro d old x
    constructor
    · rintro rfl
      cases hp
    · intro h
      rw [h] at hq
      cases hq

theorem lockMu_eq {p : Pc T} (h : lockMu s t p = some s') :
    s.mu = none ∧ s' = { s.setPc t p with mu := some t } := by
  unfold lockMu at h
  split at h
  · next hfree => exact ⟨hfree, (Option.some.inj h).symm⟩
  · cases h

theorem counterAdd_effect (hok : (s.pc t).Ok s.value (s.waiting t))
    (h : counterAdd s t (s.pc t) = some s') : Effect t s s' := by
  cases hpc : s.pc t <;> rw [hpc] at h hok <;> simp only [counterAdd] at h
  case addLock d =>
    split at h
    · cases h
      refine .move _ (.simple rfl (by rw [hpc]; rfl) rfl nofun (by rw [hpc]; rfl))
    · next hd =>
        obtain ⟨hfree, rfl⟩ := lockMu_eq h
        refine .move (.addLoad d) ⟨rfl, rfl, rfl, rfl, rfl, rfl, .take hfree rfl (by rw [hpc]; rfl) rfl,
          id, nofun, by rw [hpc]; rfl, hd, by rw [hpc]; nofun, by rw [hpc]; nofun, ?_, Or.inl, Or.inl⟩
        exact fun _ _ _ => ⟨nofun, by rw [hpc]; nofun⟩
  case addLoad d =>
    cases h
    refine .move (.addCas d s.value) ⟨rfl, rfl, rfl, rfl, rfl, rfl, .keep rfl (by rw [hpc]; rfl), id,
      nofun, by rw [hpc]; rfl, ⟨hok, rfl⟩, by rw [hpc]; nofun, by rw [hpc]; nofun, ?_, Or.inl, Or.inl⟩
    exact fun _ _ _ => ⟨nofun, by rw [hpc]; nofun⟩
  case addCas d old =>
    split at h
    · next hv =>
        cases h
        exact .cas d old hpc hv rfl
    · next hv => exact (hv hok.2).elim
  case addCheck d old =>
    obtain ⟨hd, hv⟩ := hok
    split at h
    · next ha =>
        have hexact := (exact_iff_inRange d old).mpr ((assertsHold_iff hd _).mp ha).1
        cases h
        refine .move _ ⟨rfl, rfl, rfl, rfl, rfl, rfl, .keep rfl ?_, id, ?_, ?_, ?_, fun _ => ?_, ?_, ?_,
          Or.inl, Or.inl⟩
        · rw [hpc]
          split <;> rfl
        · split <;> nofun
        · rw [hpc]
          split <;> rfl
        · split
          · next h0 => exact ⟨hv, hexact, by rw [hv, h0]⟩
          · exact ⟨hv, hexact⟩
        · split
          · exact Or.inl rfl
          · next h0 => exact Or.inr (Or.inr (by rwa [hv]))
        · intro d' old' h'
          rw [hpc] at h'
          cases h'
          exact ha
        · refine fun _ _ _ => ⟨?_, by rw [hpc]; nofun⟩
          split <;> nofun
    · next ha =>
        cases h
        exact .crash d old hpc (by simpa using ha) rfl
  case addWake d old =>
    split at h
    · next hw =>
        cases h
        refine .move (.addUnlock d old) ⟨rfl, rfl, rfl, rfl, rfl, rfl, .keep rfl (by rw [hpc]; rfl), id,
          nofun, by rw [hpc]; rfl, ⟨hok.1, hok.2.1⟩, fun _ => Or.inr (Or.inl hw), by rw [hpc]; nofun, ?_,
          Or.inl, Or.inl⟩
        exact fun _ _ _ => ⟨nofun, by rw [hpc]; nofun⟩
    · next x rest hw =>
        cases h
        exact .wake d old x rest hpc hw rfl
  case addPost d old x =>
    cases h
    exact .wakePost d old x hpc rfl
  case addUnlock d old =>
    cases h
    refine .move (.client (some (old + d))) ⟨rfl, rfl, rfl, rfl, rfl, rfl,
      .drop rfl (by rw [hpc]; rfl) rfl, id, nofun, by rw [hpc]; rfl, trivial, by rw [hpc]; nofun,
      by rw [hpc]; nofun, ?_, Or.inl, Or.inl⟩
    exact fun _ _ _ => ⟨nofun, by rw [hpc]; nofun⟩
  all_goals cases h

theorem waitNotReady_eq (s : State T) (t : T) (w : Wait) :
    ∃ p : Pc T, waitNotReady s t w = s.setPc t p ∧ p.holds = false ∧ p.queued = false ∧
      (p = .resultLoad ∨ p = .client none) := by
  unfold waitNotReady
  cases w.counter
  · exact ⟨.client none, rfl, rfl, rfl, Or.inr rfl⟩
  · exact ⟨.resultLoad, rfl, rfl, rfl, Or.inl rfl⟩

/-- A wait returns because the counter is ready. -/
theorem waitReady_move {s₁ : State T} {w : Wait} (h0 : s.value = 0#32)
    (hb : (s.pc t).begun = true) (hq : (s.pc t).queued = false) (hc : (s.pc t).clearing = false)
    (hs₁ : s₁ = { s with mu := s₁.mu, zeroReported := s₁.zeroReported })
    (hmu : ∀ r, MuMove s (waitReady s₁ t w) t (.client r))
    (hr : s₁.zeroReported = true → s.zeroReported = true ∨ (s.value = 0#32 ∧
      (s.pc t).begun = true)) : Effect t s (waitReady s₁ t w) := by
  have hnd : ∀ d old, s.pc t ≠ .addCheck d old := by
    intro d old h
    rw [h] at hb
    cases hb
  have hnp : ∀ d old x, s.pc t ≠ .addPost d old x := by
    intro d old x h
    rw [h] at hb
    cases hb
  have hret : (waitReady s₁ t w).zeroReturned = true → s.zeroReturned = true ∨ (s.value = 0#32 ∧
      (s.pc t).begun = true) := fun _ => Or.inr ⟨h0, hb⟩
  have hcl : (s.pc t).clearing = true → False := by simp [hc]
  unfold waitReady at hmu hret ⊢
  rw [hs₁] at hmu hret ⊢
  split
  · next hw =>
      rw [if_pos hw] at hmu hret
      exact .move (.client (some 0#32)) ⟨rfl, rfl, rfl, rfl, rfl, rfl, hmu _, id, nofun, hq.symm,
        trivial, fun h => (hcl h).elim, fun d old h => (hnd d old h).elim,
        fun d old x => ⟨nofun, hnp d old x⟩, hret, hr⟩
  · next hw =>
      rw [if_neg hw] at hmu hret
      exact .move (.client none) ⟨rfl, rfl, rfl, rfl, rfl, rfl, hmu _, id, nofun, hq.symm,
        trivial, fun h => (hcl h).elim, fun d old h => (hnd d old h).elim,
        fun d old x => ⟨nofun, hnp d old x⟩, hret, hr⟩

theorem counterReadyTime_effect {ch : Choice} (h : counterReadyTime s t ch (s.pc t) = some s') :
    Effect t s s' := by
  cases hpc : s.pc t <;> rw [hpc] at h <;> simp only [counterReadyTime] at h
  case readyStore first w =>
    cases h
    refine .move (.readyLoad first w) ⟨rfl, rfl, rfl, rfl, rfl, rfl, .keep rfl (by rw [hpc]; rfl),
      fun _ => rfl, fun _ => Or.inr rfl, by rw [hpc]; rfl, trivial, by rw [hpc]; nofun,
      by rw [hpc]; nofun, ?_, Or.inl, Or.inl⟩
    exact fun _ _ _ => ⟨nofun, by rw [hpc]; nofun⟩
  case readyLoad first w =>
    split at h
    · next h0 =>
        cases h
        cases first with
        | true =>
            refine waitReady_move h0 (by rw [hpc]; rfl) (by rw [hpc]; rfl) (by rw [hpc]; rfl) rfl
              (fun r => .keep ?_ (by rw [hpc]; rfl)) fun _ => Or.inr ⟨h0, by rw [hpc]; rfl⟩
            unfold waitReady
            split <;> rfl
        | false =>
            refine .move (.deqLock w) ⟨rfl, rfl, rfl, rfl, rfl, rfl, .keep rfl (by rw [hpc]; rfl), id,
              fun _ => Or.inl (by rw [hpc]; rfl), by rw [hpc]; rfl, trivial, by rw [hpc]; nofun,
              by rw [hpc]; nofun, ?_, Or.inl, fun _ => Or.inr ⟨h0, by rw [hpc]; rfl⟩⟩
            exact fun _ _ _ => ⟨nofun, by rw [hpc]; nofun⟩
    · split at h
      · cases h
        exact .init w hpc rfl
      · cases h
        obtain ⟨p, hp, hh, hq, -⟩ := waitNotReady_eq s t w
        exact .move p (.simple hp (by rw [hpc]; rfl) hh (fun _ => by rw [hpc]; rfl) (by rw [hpc, hq]; rfl))
      · cases h
        exact .move (.sleep w) (.simple rfl (by rw [hpc]; rfl) rfl (fun _ => by rw [hpc]; rfl)
          (by rw [hpc]; rfl))
      · split at h <;> cases h
        exact .move (.deqLock w) (.simple rfl (by rw [hpc]; rfl) rfl (fun _ => by rw [hpc]; rfl)
          (by rw [hpc]; rfl))
  all_goals cases h

theorem counterEnqueue_effect (h : counterEnqueue s t (s.pc t) = some s') : Effect t s s' := by
  cases hpc : s.pc t <;> rw [hpc] at h <;> simp only [counterEnqueue] at h
  case enqLock w =>
    obtain ⟨hfree, rfl⟩ := lockMu_eq h
    refine .move (.enqLoad w) ⟨rfl, rfl, rfl, rfl, rfl, rfl, .take hfree rfl (by rw [hpc]; rfl) rfl,
      id, fun _ => Or.inl (by rw [hpc]; rfl), by rw [hpc]; rfl, trivial, by rw [hpc]; nofun,
      by rw [hpc]; nofun, ?_, Or.inl, Or.inl⟩
    exact fun _ _ _ => ⟨nofun, by rw [hpc]; nofun⟩
  case enqLoad w =>
    cases h
    refine .move (.enqLink s.value w) ⟨rfl, rfl, rfl, rfl, rfl, rfl, .keep rfl (by rw [hpc]; rfl), id,
      fun _ => Or.inl (by rw [hpc]; rfl), by rw [hpc]; rfl, rfl, by rw [hpc]; nofun,
      by rw [hpc]; nofun, ?_, Or.inl, Or.inl⟩
    exact fun _ _ _ => ⟨nofun, by rw [hpc]; nofun⟩
  case enqLink value w =>
    split at h
    · next hv =>
        cases h
        exact .link value w hpc hv rfl
    · next hv =>
        cases h
        exact .noLink value w hpc (not_not.mp hv) rfl
  case enqUnlock w =>
    cases h
    refine .move (.enqDone w) ⟨rfl, rfl, rfl, rfl, rfl, rfl, .drop rfl (by rw [hpc]; rfl) rfl, id,
      fun _ => Or.inl (by rw [hpc]; rfl), by rw [hpc]; rfl, trivial, by rw [hpc]; nofun,
      by rw [hpc]; nofun, ?_, Or.inl, Or.inl⟩
    exact fun _ _ _ => ⟨nofun, by rw [hpc]; nofun⟩
  all_goals cases h

theorem counterDequeue_effect (hok : (s.pc t).Ok s.value (s.waiting t))
    (h : counterDequeue s t (s.pc t) = some s') : Effect t s s' := by
  cases hpc : s.pc t <;> rw [hpc] at h hok <;> simp only [counterDequeue] at h
  case deqLock w =>
    obtain ⟨hfree, rfl⟩ := lockMu_eq h
    refine .move (.deqLoad w) ⟨rfl, rfl, rfl, rfl, rfl, rfl, .take hfree rfl (by rw [hpc]; rfl) rfl,
      id, fun _ => Or.inl (by rw [hpc]; rfl), by rw [hpc]; rfl, trivial, by rw [hpc]; nofun,
      by rw [hpc]; nofun, ?_, Or.inl, Or.inl⟩
    exact fun _ _ _ => ⟨nofun, by rw [hpc]; nofun⟩
  case deqLoad w =>
    cases h
    refine .move (.deqCheck s.value w) ⟨rfl, rfl, rfl, rfl, rfl, rfl, .keep rfl (by rw [hpc]; rfl), id,
      fun _ => Or.inl (by rw [hpc]; rfl), by rw [hpc]; rfl, rfl, by rw [hpc]; nofun,
      by rw [hpc]; nofun, ?_, Or.inl, Or.inl⟩
    exact fun _ _ _ => ⟨nofun, by rw [hpc]; nofun⟩
  case deqCheck value w =>
    cases hw : s.waiting t with
    | true =>
        simp only [hw, if_true, Option.some.injEq] at h
        subst h
        refine .move (.deqRemove value w) ⟨rfl, rfl, rfl, rfl, rfl, rfl, .keep rfl (by rw [hpc]; rfl),
          id, fun _ => Or.inl (by rw [hpc]; rfl), by rw [hpc]; rfl, ⟨hok, hw⟩, by rw [hpc]; nofun,
          by rw [hpc]; nofun, ?_, Or.inl, Or.inl⟩
        exact fun _ _ _ => ⟨nofun, by rw [hpc]; nofun⟩
    | false =>
        simp only [hw, Bool.false_eq_true, if_false, Option.some.injEq] at h
        subst h
        exact .skip value w hpc hw rfl
  case deqRemove value w =>
    cases h
    exact .remove value w hpc rfl
  case deqUnlock value w =>
    cases h
    split
    · next h0 =>
        refine waitReady_move (by rw [show s.value = value from hok, h0]) (by rw [hpc]; rfl)
          (by rw [hpc]; rfl) (by rw [hpc]; rfl) rfl (fun r => .drop ?_ (by rw [hpc]; rfl) rfl) Or.inl
        unfold waitReady
        split <;> rfl
    · obtain ⟨p, hp, hh, hq, hcase⟩ := waitNotReady_eq { s with mu := none } t w
      rw [hp]
      refine .move p ⟨rfl, rfl, rfl, rfl, rfl, rfl, .drop rfl (by rw [hpc]; rfl) hh, id,
        fun _ => Or.inl (by rw [hpc]; rfl), by rw [hpc, hq]; rfl, Pc.ok_of_not_holds hh _ _,
        by rw [hpc]; nofun, by rw [hpc]; nofun, fun _ _ _ => ⟨?_, by rw [hpc]; nofun⟩, Or.inl, Or.inl⟩
      rcases hcase with rfl | rfl <;> nofun
  all_goals cases h

theorem callStep_effect {r : Option Word} {p : Pc T} (hpc : s.pc t = .client r)
    (hp : p.holds = false) (hb : p.begun = false) (hq : p.queued = false) :
    Effect t s (s.setPc t p) :=
  .move p (.simple rfl (by rw [hpc]; rfl) hp (by simp [hb]) (by rw [hpc, hq]; rfl))

theorem step_effect {a : Act} (hok : (s.pc t).Ok s.value (s.waiting t))
    (h : step t a s = some s') : s.crashed = false ∧ Effect t s s' := by
  unfold step at h
  split at h
  · cases h
  next hcr =>
  refine ⟨by simpa using hcr, ?_⟩
  cases a with
  | post =>
      cases h
      exact .post rfl
  | call c =>
      simp only at h
      split at h
      · next r hpc =>
          cases h
          cases c <;> exact callStep_effect hpc rfl rfl rfl
      · cases h
  | step ch =>
      simp only at h
      cases hpc : s.pc t <;> rw [hpc] at hok <;> simp only [hpc] at h
      case client => cases h
      case valueLoad =>
        cases h
        exact .move _ (.simple rfl (by rw [hpc]; rfl) rfl nofun (by rw [hpc]; rfl))
      case resultLoad =>
        cases h
        refine .move (.client (some s.value)) ⟨rfl, rfl, rfl, rfl, rfl, rfl,
          .keep rfl (by rw [hpc]; rfl), id, nofun, by rw [hpc]; rfl, trivial, by rw [hpc]; nofun,
          by rw [hpc]; nofun, fun _ _ _ => ⟨nofun, by rw [hpc]; nofun⟩, fun hr => ?_, Or.inl⟩
        rcases Bool.or_eq_true_iff.mp hr with hr | hr
        · exact Or.inl hr
        · exact Or.inr ⟨by simpa using hr, by rw [hpc]; rfl⟩
      case enqDone w =>
        split at h
        · cases h
          exact .move _ (.simple rfl (by rw [hpc]; rfl) rfl (fun _ => by rw [hpc]; rfl)
            (by rw [hpc]; rfl))
        · split at h <;> cases h
          exact .move _ (.simple rfl (by rw [hpc]; rfl) rfl (fun _ => by rw [hpc]; rfl)
            (by rw [hpc]; rfl))
      case sleep w =>
        split at h
        · split at h <;> cases h
          refine .move (.readyStore false w) ⟨rfl, rfl, rfl, rfl, rfl, rfl,
            .keep rfl (by rw [hpc]; rfl), id, fun _ => Or.inl (by rw [hpc]; rfl), by rw [hpc]; rfl,
            trivial, by rw [hpc]; nofun, by rw [hpc]; nofun, ?_, Or.inl, Or.inl⟩
          exact fun _ _ _ => ⟨nofun, by rw [hpc]; nofun⟩
        · cases h
          exact .move _ (.simple rfl (by rw [hpc]; rfl) rfl (fun _ => by rw [hpc]; rfl)
            (by rw [hpc]; rfl))
      case readyStore | readyLoad => exact counterReadyTime_effect (by rw [hpc]; exact h)
      case enqLock | enqLoad | enqLink | enqUnlock =>
        exact counterEnqueue_effect (by rw [hpc]; exact h)
      case deqLock | deqLoad | deqCheck | deqRemove | deqUnlock =>
        exact counterDequeue_effect (by rw [hpc]; exact hok) (by rw [hpc]; exact h)
      all_goals exact counterAdd_effect (by rw [hpc]; exact hok) (by rw [hpc]; exact h)

end Nsync.Counter
