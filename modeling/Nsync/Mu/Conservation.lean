import Nsync.Mu.Places
import Nsync.Mu.ScanLists

/-!
# Waiters are neither lost nor duplicated

History variables record how often a waiter was queued, who removed it, and
which waiters a scan of `nsync_mu_unlock_slow_` has to account for.
-/

namespace Nsync.Mu

open Nsync.Lib

variable {T σ : Type}

/-! ## History -/

/-- How often each waiter was queued, who took it off its queue, and, for each
thread that scans, the queue it found and the waiters that have joined since. -/
structure History (T : Type) where
  enqueues : T → ℕ
  removers : T → List T
  initial : T → List T
  arrived : T → List T

def History.empty : History T := ⟨fun _ => 0, fun _ => [], fun _ => [], fun _ => []⟩

open Classical in
/-- The waiters that are on the mutex queue in `s'` and were on no queue in `s`. -/
noncomputable def joined (s s' : State T σ) : List T := s'.waiters.filter fun x => ¬ s.Queued x

open Classical in
/-- The history after a step of `t` from `s` to `s'`. -/
noncomputable def History.next (t : T) (s s' : State T σ) (h : History T) : History T where
  enqueues x := if ¬ s.Queued x ∧ s'.Queued x then h.enqueues x + 1 else h.enqueues x
  removers x := if s.Queued x ∧ ¬ s'.Queued x then t :: h.removers x else h.removers x
  initial u :=
    if (s.pc u).region = false ∧ (s'.pc u).region = true then s.waiters else h.initial u
  arrived u :=
    if (s.pc u).region = false then []
    else h.arrived u ++ joined s s'

/-! ## The waiters of a scan in runs -/

/-- On the mutex queue or on a list of thread `u` in `nsync_mu_unlock_slow_`. -/
def Loc.InScan (u : T) (l : Loc T) : Prop := l = .muQ ∨ l = .priv u ∨ l = .wake u

section

variable [DecidableEq T] [Fintype T] {E : Env σ} {C : WaitCondition → Prop} {s s' : State T σ}
  {loc loc' : T → Loc T} {t u x : T}

omit [DecidableEq T] [Fintype T] in
theorem Lists.inScan_iff (h : Lists s loc) :
    x ∈ s.waiters ∨ x ∈ (s.pc u).priv ∨ x ∈ (s.pc u).wake ↔ (loc x).InScan u := by
  rw [h.muQ.mem, (h.priv u).mem, (h.wake u).mem, Loc.InScan]

variable {a a' : AState T σ}

omit [DecidableEq T] [Fintype T] in
/-- A waiter joins the mutex queue from outside or from the list of a signaller. -/
theorem Move.joins (hm : Move t a a' x) (hq' : a'.loc x = .muQ) (hq : ¬ (a.loc x).OnQueue) :
    ¬ (a.loc x).InScan u := by
  cases hm with
  | stay h' =>
      rw [h'] at hq'
      exact (hq (Or.inl (Or.inl hq'))).elim
  | leave hx h h' => simp [h'] at hq'
  | giveBack h h' => exact (hq (Or.inl (Or.inr ⟨t, h⟩))).elim
  | _ => simp_all [Loc.InScan, Loc.OnQueue, Loc.Queued]

omit [DecidableEq T] [Fintype T] in
/-- A step of the scanning thread itself. -/
theorem Move.inScan_self (hm : Move t a a' x) (hmine : (a.th t).phase ≠ .muMine)
    (hwake : a.loc x = .wake t → a'.loc x = .wake t) :
    (a'.loc x).InScan t ↔ (a.loc x).InScan t ∨ (a'.loc x = .muQ ∧ ¬ (a.loc x).OnQueue) := by
  cases hm with
  | stay h' =>
      rw [h']
      refine ⟨Or.inl, fun h => h.elim id fun hq => ?_⟩
      exact (hq.2 (Or.inl (Or.inl hq.1))).elim
  | leave hx h h' => rcases h with h | h <;> simp [h, h', Loc.InScan]
  | _ => simp_all [Loc.InScan, Loc.OnQueue, Loc.Queued]

omit [DecidableEq T] in
/-- Thread `t` cannot be removing itself while `u` scans. -/
theorem AInv.phase_of_region (h : AInv E C a) (hu : (a.th u).region = true)
    (ht : (a.th t).phase = .muMine) : u = t := by
  obtain ⟨old, hold⟩ := (h.lock.wf t).mine ht
  rcases (h.lock.wf u).region hu with hspin | hlock
  · exact h.lock.spin.unique u t hspin (by simp [hold])
  · exact (h.lock.shares.eq_of_writer hlock ((h.lock.wf t).hold old hold).1).symm

omit [DecidableEq T] in
/-- A step of another thread. -/
theorem Move.inScan_other (hm : Move t a a' x) (hi : AInv E C a) (hi' : AInv E C a')
    (hut : u ≠ t) (hu : (a.th u).region = true) (hu' : (a'.th u).region = true) :
    (a'.loc x).InScan u ↔ (a.loc x).InScan u ∨ (a'.loc x = .muQ ∧ ¬ (a.loc x).OnQueue) := by
  have hpriv : a.loc x ≠ .priv t := fun h => hut (hi.queue.region u t hu (hi.place.priv x t h).1)
  have hpriv' : a'.loc x ≠ .priv t :=
    fun h => hut (hi'.queue.region u t hu' (hi'.place.priv x t h).1)
  have hmine : (a.th t).phase ≠ .muMine := fun h => hut (hi.phase_of_region hu h)
  cases hm with
  | stay h' =>
      rw [h']
      refine ⟨Or.inl, fun h => h.elim id fun hq => ?_⟩
      exact (hq.2 (Or.inl (Or.inl hq.1))).elim
  | leave hx h h' => rcases h with h | h <;> simp [h, h', Loc.InScan]
  | wake h h' =>
      have : t ≠ u := Ne.symm hut
      simp [h, h', Loc.InScan, this]
  | _ => simp_all [Loc.InScan, Loc.OnQueue, Loc.Queued]

/-- The lists of a thread `u` that scans hold the queue that it found and the
waiters that have arrived since, and what is left of the former is in order. -/
structure Gathered (s : State T σ) (u : T) (initial arrived : List T) : Prop where
  nodup : (initial ++ arrived).Nodup
  mem : ∀ x, x ∈ s.waiters ∨ x ∈ (s.pc u).priv ∨ x ∈ (s.pc u).wake ↔ x ∈ initial ++ arrived
  away : (s.pc u).scan? ≠ none → ∀ x ∈ initial, x ∉ s.waiters
  order : ((s.leftOver u).filter (· ∈ initial)).Sublist initial

omit [DecidableEq T] [Fintype T] in
theorem Move.priv_of_ne (hm : Move t a a' x) (hut : u ≠ t) (hx : a.loc x = .priv u) :
    a'.loc x = .priv u := by
  cases hm with
  | stay h' => rw [h', hx]
  | leave _ h _ => simp [hx, Loc.Free] at h
  | giveBack h | dequeue h =>
      rw [hx, Loc.priv.injEq] at h
      exact (hut h).elim
  | _ => simp_all

omit [DecidableEq T] [Fintype T] in
theorem mem_joined (hl : Lists s loc) (hl' : Lists s' loc') :
    x ∈ joined s s' ↔ loc' x = .muQ ∧ ¬ (loc x).OnQueue := by
  simp [joined, hl'.muQ.mem, hl.queued_iff]

namespace Gathered

variable {initial arrived : List T}

omit [Fintype T] in
/-- What every step does to the waiters of a scan. -/
theorem next (h : Gathered s u initial arrived) (hl : Lists s loc) (hl' : Lists s' loc')
    (hm : ∀ x, Move t (s.abs loc) (s'.abs loc') x)
    (hkey : ∀ x, (loc' x).InScan u ↔
      (loc x).InScan u ∨ (loc' x = .muQ ∧ ¬ (loc x).OnQueue))
    (haway : (s'.pc u).scan? ≠ none → ∀ x ∈ initial, x ∉ s'.waiters)
    (horder : ((s'.leftOver u).filter (· ∈ initial)).Sublist initial) :
    Gathered s' u initial (arrived ++ joined s s') where
  nodup := by
    rw [← List.append_assoc, List.nodup_append]
    refine ⟨h.nodup, hl'.muQ.nodup.filter _, fun x hx y hy hxy => ?_⟩
    subst hxy
    obtain ⟨hq', hq⟩ := (mem_joined hl hl').mp hy
    exact (hm x).joins hq' hq (hl.inScan_iff.mp ((h.mem x).mpr hx))
  mem x := by
    rw [hl'.inScan_iff, hkey, ← mem_joined hl hl', ← hl.inScan_iff, h.mem, ← List.append_assoc,
      List.mem_append (s := initial ++ arrived)]
  away := haway
  order := horder

theorem step_self {a : Act σ} (h : Gathered s t initial arrived) (hg : Good E C s loc)
    (hg' : Good E C s' loc') (hs : AStep E C t (s.abs loc) (s'.abs loc'))
    (hstep : step E t a s = some s') (hr : (s.pc t).region = true)
    (hr' : (s'.pc t).region = true) : Gathered s' t initial (arrived ++ joined s s') := by
  obtain ⟨hleft, hwake, hqueue⟩ := step_scanStep hr hr' hstep
  have hmine : ((s.abs loc).th t).phase ≠ .muMine := by
    intro hp
    have hspin := (hg.inv.lock.wf t).mine hp
    change (s.pc t).region = true at hr
    change ∃ old, (s.pc t).spinRole = .hold old at hspin
    generalize s.pc t = p at hr hspin
    obtain ⟨old, hold⟩ := hspin
    cases p with
    | unlockSlow m k p =>
        cases p with
        | scan sc | scanRemove sc => cases hts : sc.testing <;> simp [Pc.spinRole, hts] at hold
        | _ => simp [Pc.spinRole] at hold
    | _ => cases hr
  refine h.next hg.lists hg'.lists (fun x => hs.move hg.inv.place x) (fun x => ?_) ?_ ?_
  · refine (hs.move hg.inv.place x).inScan_self hmine fun hx => ?_
    exact ((hg'.lists.wake t).mem x).mp (hwake x (((hg.lists.wake t).mem x).mpr hx))
  · intro hsc x hx hmem
    obtain ⟨hsc₀, hsub⟩ := hqueue hsc
    exact h.away hsc₀ x hx (hsub x hmem)
  · rcases hleft with hsub | ⟨hsc, heq⟩
    · exact (hsub.filter _).trans h.order
    · have hnil : s.waiters.filter (· ∈ initial) = [] := by
        rw [List.filter_eq_nil_iff]
        intro x hx hmem
        exact h.away hsc x (of_decide_eq_true hmem) hx
      rw [heq, List.filter_append, hnil, List.append_nil]
      exact h.order

theorem step_other {a : Act σ} (h : Gathered s u initial arrived) (hg : Good E C s loc)
    (hg' : Good E C s' loc') (hs : AStep E C t (s.abs loc) (s'.abs loc'))
    (hstep : step E t a s = some s') (hut : u ≠ t) (hr : (s.pc u).region = true) :
    Gathered s' u initial (arrived ++ joined s s') := by
  have hpc : s'.pc u = s.pc u := step_pc_of_ne hut hstep
  have hr' : (s'.pc u).region = true := by rw [hpc, hr]
  have hm := fun x => hs.move hg.inv.place x
  refine h.next hg.lists hg'.lists hm
    (fun x => (hm x).inScan_other hg.inv hg'.inv hut hr hr') ?_ ?_
  · rw [hpc]
    intro hsc x hx hmem
    have hq' : loc' x = .muQ := (hg'.lists.muQ.mem x).mp hmem
    rcases hg.lists.inScan_iff.mp ((h.mem x).mpr (List.mem_append_left _ hx)) with hq | hq | hq
    · exact h.away hsc x hx ((hg.lists.muQ.mem x).mpr hq)
    · have hstay : loc' x = .priv u := (hm x).priv_of_ne hut hq
      simp [hq'] at hstay
    · refine (hm x).joins (u := u) hq' ?_ (Or.inr (Or.inr hq))
      simp [State.abs, hq, Loc.OnQueue, Loc.Queued]
  · cases hsc : (s.pc u).scan? with
    | some sc =>
        rw [State.leftOver_of_scan (hpc ▸ hsc), ← State.leftOver_of_scan hsc]
        exact h.order
    | none =>
        have hspin : (s.pc u).spinRole ≠ .no := by
          generalize s.pc u = p at hr hsc
          cases p with
          | unlockSlow m k p => cases p <;> simp_all [Pc.region, Pc.scan?, Pc.spinRole]
          | _ => cases hr
        have hsame : s'.waiters = s.waiters := by
          rcases step_waiters (hg.pcs t).ok hstep with hw | hw | hw
          · exact hw
          · exact (hut (hg.inv.lock.spin.unique u t hspin hw)).elim
          · have hset : (view s.word).spin = true := hg.inv.lock.spin.set_of hspin
            rw [hw] at hset
            cases hset
        rw [State.leftOver_of_none (hpc ▸ hsc), hsame, ← State.leftOver_of_none hsc]
        exact h.order

/-- A scan begins with the queue as it is. -/
theorem start {a : Act σ} (hg : Good E C s loc)
    (hstep : step E t a s = some s') (hr : (s.pc t).region = false)
    (hr' : (s'.pc t).region = true) : Gathered s' t s.waiters [] := by
  obtain ⟨hleft, hwake, hempty⟩ := step_enters hr hr' hstep
  refine ⟨by simpa using hg.lists.muQ.nodup, fun x => ?_, fun hsc x _ => ?_, ?_⟩
  · rw [hwake, List.append_nil, ← hleft]
    cases hsc : (s'.pc t).scan? with
    | some sc =>
        rw [hempty (by simp [hsc]), State.leftOver_of_scan hsc, Pc.priv_of_scan hsc]
        simp
    | none =>
        rw [State.leftOver_of_none hsc]
        simp [Pc.priv, Pc.scanOld, Pc.scanNew, hsc]
  · rw [hempty hsc]
    exact List.not_mem_nil
  · rw [hleft]
    exact List.filter_sublist

end Gathered

/-! ## All together -/

/-- What the history says about the state. -/
structure Conserved (s : State T σ) (h : History T) : Prop where
  count : ∀ x, (s.wtr x).removeCount = BitVec.ofNat 32 (h.removers x).length
  queued : ∀ x, s.Queued x → h.enqueues x = (h.removers x).length + 1
  free : ∀ x, ¬ s.Queued x → h.enqueues x = (h.removers x).length
  checked : ∀ u, (s.pc u).Checked (s.wtr u)
  scan : ∀ u, (s.pc u).region = true → Gathered s u (h.initial u) (h.arrived u)

omit [Fintype T] in
theorem conserved_initial (x : σ) : Conserved (initial x : State T σ) History.empty where
  count _ := rfl
  queued y hy := by
    rcases hy with hy | ⟨u, hy⟩ | ⟨c, hy⟩ <;> cases hy
  free _ _ := rfl
  checked _ := trivial
  scan u hu := by cases hu

/-- A waiter leaves its queue exactly by a counted removal. -/
theorem leaves_iff_removes {a : Act σ} (hg : Good E C s loc) (hg' : Good E C s' loc')
    (hs : AStep E C t (s.abs loc) (s'.abs loc')) (hstep : step E t a s = some s') :
    s.Queued x ∧ ¬ s'.Queued x ↔ Removes t x s s' := by
  constructor
  · rintro ⟨hq, hq'⟩
    have hcount : (s'.wtr x).removeCount = (s.wtr x).removeCount + 1#32 := by
      refine hs.count_of_leaves hg.inv.place (hg.lists.queued_iff.mp hq) ?_
      rwa [hg'.lists.queued_iff] at hq'
    have hne : (s'.wtr x).removeCount ≠ (s.wtr x).removeCount := by
      rw [hcount]
      generalize (s.wtr x).removeCount = w
      bv_omega
    rcases step_removes hstep with hsame | ⟨y, hy⟩
    · exact (hne (hsame x)).elim
    · rcases eq_or_ne x y with rfl | hxy
      · exact hy
      · exact (hne (hy.others x hxy)).elim
  · intro hr
    exact ⟨hg.queued_of_removing hr.place, hg'.not_queued_of_took hr.took⟩

omit [DecidableEq T] [Fintype T] in
/-- Another thread does not change the count of a waiter that has been checked. -/
theorem Pc.Checked.frame {p : Pc T} {w w' : Waiter} (h : p.Checked w)
    (hrc : p.Mine → w'.removeCount = w.removeCount) :
    p.Checked w' := by
  cases p with
  | muWait l p => cases p <;> first | exact h | exact ⟨h.1, (hrc (Or.inl rfl)).trans h.2⟩
  | cvWait l p => cases p <;> first | exact h | exact ⟨h.1, (hrc (Or.inr ⟨_, rfl⟩)).trans h.2⟩
  | _ => exact h

theorem Conserved.step {a : Act σ} {h : History T} (hc : Conserved s h) (hg : Good E C s loc)
    (hg' : Good E C s' loc') (hs : AStep E C t (s.abs loc) (s'.abs loc'))
    (hstep : step E t a s = some s') : Conserved s' (h.next t s s') where
  count x := by
    by_cases hr : Removes t x s s'
    · have hleaves := (leaves_iff_removes hg hg' hs hstep).mpr hr
      have hnext : (h.next t s s').removers x = t :: h.removers x := if_pos hleaves
      rw [hr.count, hc.count, hnext, List.length_cons, BitVec.ofNat_add]
    · have hstay := mt (leaves_iff_removes hg hg' hs hstep).mp hr
      have hnext : (h.next t s s').removers x = h.removers x := if_neg hstay
      rw [hnext, ← hc.count]
      rcases step_removes hstep with hsame | ⟨y, hy⟩
      · exact hsame x
      · refine hy.others x ?_
        rintro rfl
        exact hr hy
  queued x hx' := by
    by_cases hx : s.Queued x
    · simp [History.next, hx, hx', hc.queued x hx]
    · simp [History.next, hx, hx', hc.free x hx]
  free x hx' := by
    by_cases hx : s.Queued x
    · simp [History.next, hx, hx', hc.queued x hx]
    · simp [History.next, hx, hx', hc.free x hx]
  checked u := by
    rcases eq_or_ne u t with rfl | hut
    · exact step_checked (hg.pcs u).ok (hc.checked u) hstep
    · rw [step_pc_of_ne hut hstep]
      refine (hc.checked u).frame fun hmine => ?_
      have hcompat : Compat (loc' u) (s'.wtr u).core (s'.pc u).phase := hg'.inv.place.compat u
      rw [step_pc_of_ne hut hstep] at hcompat
      have hq' : s'.Queued u := by
        rw [hg'.lists.queued_iff]
        rcases hmine with hp | ⟨c, hp⟩ <;> rw [hp] at hcompat
        · exact Or.inl (Or.inl hcompat.1)
        · exact Or.inr ⟨c, hcompat.1⟩
      rcases step_removes hstep with hsame | ⟨y, hy⟩
      · exact hsame u
      · refine hy.others u ?_
        rintro rfl
        exact ((leaves_iff_removes hg hg' hs hstep).mpr hy).2 hq'
  scan u hu' := by
    cases hu : (s.pc u).region with
    | true =>
        simp only [History.next, hu, Bool.true_eq_false, false_and, if_false]
        rcases eq_or_ne u t with rfl | hut
        · exact (hc.scan u hu).step_self hg hg' hs hstep hu hu'
        · exact (hc.scan u hu).step_other hg hg' hs hstep hut hu
    | false =>
        have hut : u = t := by
          by_contra hut
          rw [step_pc_of_ne hut hstep, hu] at hu'
          cases hu'
        subst hut
        simp only [History.next, hu, hu', and_self, if_true]
        exact .start hg hstep hu hu'

/-- The states that regular runs reach, with their histories. -/
def Recorded (E : Env σ) (x : σ) : State T σ × History T → Prop :=
  Reach (withHistory (fun (i : T × Act σ) s => step E i.1 i.2 s) fun i s s' h => h.next i.1 s s')
    (fun i p => Regular i.1 i.2 p.1) (initial x, History.empty)

variable {h : History T} {y : σ}

theorem Recorded.reachable (hr : Recorded E y (s, h)) : Reachable E Regular y s :=
  Reach.forget_history hr

theorem Recorded.conserved (hr : Recorded E y (s, h)) : Conserved s h := by
  refine Reach.invariant hr (I := fun p => Conserved p.1 p.2) (conserved_initial y) ?_
  rintro i ⟨s₁, h₁⟩ p hr₁ hc hP hs
  obtain ⟨s₂, hs₂, rfl⟩ := Option.map_eq_some_iff.mp hs
  obtain ⟨loc, loc', hg, hg', hstep⟩ := Reachable.step_of_regular (Recorded.reachable hr₁) hP hs₂
  exact hc.step hg hg' hstep hs₂

/-- Who removes the waiter of `x` and why: a waker, or the owner after a timeout or
a cancellation, with the count that it remembers. -/
inductive Remover (t x : T) (s s' : State T σ) : Prop where
  | waker (h : x ∈ s'.list (.wake t) ∨ x ∈ s'.list (.toWake t))
  | owner (hx : x = t) (l : MuWait) (old rc : Word)
      (hpc : s.pc t = .muWait l (.tryRemove old (.cas rc))) (hout : l.semOutcome ≠ .ok)
      (hcount : (s.wtr x).removeCount = l.removeCount)
  | cvOwner (hx : x = t) (l : CvWait) (old rc : Word)
      (hpc : s.pc t = .cvWait l (.remove old (.cas rc))) (hout : l.semOutcome ≠ .ok)
      (hcount : (s.wtr x).removeCount = l.removeCount)

omit [DecidableEq T] [Fintype T] in
theorem Removes.remover (hr : Removes t x s s') (hc : (s.pc t).Checked (s.wtr t)) :
    Remover t x s s' := by
  rcases hr.took with hx | hx | ⟨hmine, rfl, -⟩
  · exact .waker (Or.inl hx)
  · exact .waker (Or.inr hx)
  · have hplace := hr.place
    unfold Pc.removing at hplace
    split at hplace
    · next m k sc y old hpc => cases k <;> simp [hpc, Pc.Mine, Pc.phase, UnlockCont.phase] at hmine
    · next l old rc hpc =>
        rw [hpc] at hc
        exact .owner rfl l old rc hpc hc.1 hc.2
    · next l old rc hpc =>
        rw [hpc] at hc
        exact .cvOwner rfl l old rc hpc hc.1 hc.2
    · next l old y rc hpc => simp [hpc, Pc.Mine, Pc.phase] at hmine
    · next l old y rc hpc => simp [hpc, Pc.Mine, Pc.phase] at hmine
    · cases hplace

/-- A waiter is on one list only, with its flag set; each removal is counted once
and each time a waiter is queued it is removed once, by a waker or by its owner;
and the last CAS of a scan accounts for every waiter it has seen. -/
theorem waiters_conserved (hr : Recorded E y (s, h)) :
    (∀ x p q, x ∈ s.list p → x ∈ s.list q → p = q) ∧ (∀ p, (s.list p).Nodup) ∧
    (∀ x p, x ∈ s.list p → (s.wtr x).waiting = true) ∧
    (∀ x, (s.wtr x).removeCount = BitVec.ofNat 32 (h.removers x).length) ∧
    (∀ x, (s.Queued x → h.enqueues x = (h.removers x).length + 1) ∧
      (¬ s.Queued x → h.enqueues x = (h.removers x).length)) ∧
    (∀ t a s', Regular t a s → step E t a s = some s' → ∀ x, s.Queued x → ¬ s'.Queued x →
      Remover t x s s' ∧ (s'.wtr x).removeCount = (s.wtr x).removeCount + 1#32) ∧
    ∀ t m k r lc, s.pc t = .unlockSlow m k (.final r lc) →
      (s.waiters ++ r.wake).Perm (h.initial t ++ h.arrived t) ∧
      (s.waiters.filter (· ∈ h.initial t)).Sublist (h.initial t) := by
  obtain ⟨loc, hg⟩ := hr.reachable.good_of_regular
  have hc := hr.conserved
  refine ⟨fun x p q => hg.lists.place_unique, hg.lists.nodup, fun x p => hg.waiting_of_list,
    hc.count, fun x => ⟨hc.queued x, hc.free x⟩, ?_, ?_⟩
  · intro t a s' hP hs x hq hq'
    obtain ⟨loc₁, loc₂, hg₁, hg₂, hstep⟩ := hr.reachable.step_of_regular hP hs
    have hrem := (leaves_iff_removes hg₁ hg₂ hstep hs).mp ⟨hq, hq'⟩
    exact ⟨hrem.remover (hc.checked t), hrem.count⟩
  · intro t m k r lc hpc
    obtain ⟨hnodup, hmem, -, horder⟩ := hc.scan t (by rw [hpc]; rfl)
    have hwake : (s.pc t).wake = r.wake := by rw [hpc]; rfl
    constructor
    · rw [List.perm_ext_iff_of_nodup ?_ hnodup]
      · intro x
        rw [← hmem x, hpc, List.mem_append]
        simp [Pc.priv, Pc.scanOld, Pc.scanNew, Pc.scan?, Pc.wake]
      · rw [List.nodup_append]
        refine ⟨hg.lists.muQ.nodup, hwake ▸ (hg.lists.wake t).nodup, fun x hx z hz hxz => ?_⟩
        subst hxz
        have hz' : x ∈ s.list (.wake t) := by
          change x ∈ (s.pc t).wake
          rwa [hwake]
        have hplace := hg.lists.place_unique (p := .mu) hx hz'
        cases hplace
    · rwa [State.leftOver_of_none (by rw [hpc]; rfl)] at horder

/-- A releasing thread is about to wake the only waiter. -/
def wakingRun : List (Fin 2 × Act Bool) :=
  [(0, .call (.lock .writer))] ++ goOn 0 1 ++ [(1, .call (.lock .writer))] ++ goOn 1 8 ++
  [(0, .call (.unlock .unlock))] ++ goOn 0 9

/-- Thread 0 has taken thread 1 off the queue and is about to store the final word. -/
def wakesOne (s : State (Fin 2) Bool) : Bool :=
  match s.pc 0 with
  | .unlockSlow _ _ (.final r _) => r.wake == [1]
  | _ => false

theorem waiters_conserved_wakingRun : ∃ (s : State (Fin 2) Bool) (h : History (Fin 2)),
    Recorded flagEnv false (s, h) ∧ ∃ m k r lc, s.pc 0 = .unlockSlow m k (.final r lc) ∧
      r.wake = [1] ∧ (s.waiters ++ r.wake).Perm (h.initial 0 ++ h.arrived 0) := by
  obtain ⟨s, hs, hf⟩ := Reachable.exists_of_exec (E := flagEnv) (P := Regular) (x := false)
    wakingRun wakesOne (by decide +kernel)
  obtain ⟨h, hh⟩ := Reach.exists_history (fun i s s' h => h.next i.1 s s') History.empty hs
  unfold wakesOne at hf
  split at hf
  · next m k r lc hpc =>
      exact ⟨s, h, hh, m, k, r, lc, hpc, by simpa using hf,
        ((waiters_conserved hh).2.2.2.2.2.2 0 m k r lc hpc).1⟩
  · cases hf

end

end Nsync.Mu
