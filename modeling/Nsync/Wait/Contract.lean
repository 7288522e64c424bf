import Nsync.Wait.Cancel

/-!
# Notes and counters keep the contract of `nsync_waitable_funcs_s`

What the functions `ready_time`, `enqueue` and `dequeue` of a note and of a counter
promise to `nsync_wait_n`, which keeps its records in its own frame.
-/

set_option linter.unusedSectionVars false

namespace Nsync.Wait

open Nsync.Lib

variable {T τ : Type}

/-- The record that a call of `dequeue` has taken off its object. -/
def Frame.left : Frame τ → Option ℕ
  | .noteDequeue _ nw _ (.unlock _) | .noteDequeue _ nw _ (.result _)
  | .counterDequeue _ nw (.unlock _) | .counterDequeue _ nw (.result _) => some nw
  | _ => none

section

variable [DecidableEq T] [LinearOrder τ] [OrderTop τ] [Zero τ] {s s' : State T τ} {t u : T}
  {ch : Choice} {f f' g c : Frame τ} {e : Eff τ (Frame τ)} {rest : List (Frame τ)} {v : Val τ}
  {nw : ℕ} {a : Waitable}

/-! ## Records that leave -/

/-- A call takes a record off under the mutex of its object. -/
theorem leaves_cases (h : (nw, a) ∈ f.leaves) :
    (f.waker = .idle ∧ ∀ rest, Holds (f :: rest) a) ∧ (nw, a) ∈ f.joined := by
  cases f with
  | noteDequeue n x b p =>
    cases p <;> first
      | exact absurd h List.not_mem_nil
      | (cases List.mem_singleton.mp h
         exact ⟨⟨rfl, fun _ => List.mem_append_left _ List.mem_cons_self⟩, List.mem_cons_self⟩)
  | counterDequeue n x p =>
    cases p <;> first
      | exact absurd h List.not_mem_nil
      | (cases List.mem_singleton.mp h
         exact ⟨⟨rfl, fun _ => List.mem_append_left _ List.mem_cons_self⟩, List.mem_cons_self⟩)
  | semWait d cancel p =>
    cases cancel <;> cases p <;> first
      | exact absurd h List.not_mem_nil
      | (cases List.mem_singleton.mp h
         exact ⟨⟨rfl, fun _ => List.mem_append_left _ List.mem_cons_self⟩, List.mem_cons_self⟩)
  | _ => exact absurd h List.not_mem_nil

theorem Safe.gone_of_leaves (h : Safe s) (hst : s.stack t = f :: rest)
    (he : action s t ch f = some e) (hl : (nw, a) ∈ f.leaves) : Gone (apply s t rest e) nw := by
  have hmem : nw ∈ recordsBy (s.stack t) := by
    rw [hst]
    refine List.mem_append_right _ (List.mem_map.mpr ⟨(nw, a), ?_, rfl⟩)
    exact List.mem_append_left _ (leaves_cases hl).2
  obtain ⟨hlt, hsem⟩ := h.records.owner t nw hmem
  refine ⟨(sem_apply hlt).1, fun u hu => ?_⟩
  by_cases hut : u = t
  · subst hut
    rw [stack_apply hst] at hu
    -- A thread uses a record only once.
    have hsub := recordsBy_stack (hst ▸ h.locks.stack.stack u)
      (h.locals u f (hst ▸ List.mem_cons_self)) he
    have hnd : (e.allocates s.nws ++ recordsBy (f :: rest)).Nodup := by
      refine List.Nodup.append allocates_nodup (hst ▸ h.records.nodup u) fun x hnew hold => ?_
      exact (le_of_mem_allocates hnew).not_gt (h.records.owner u x (hst ▸ hold)).1
    obtain ⟨l, hperm, hsl⟩ := hsub
    have hnd' := hperm.nodup_iff.mp (hsl.nodup hnd)
    exact (List.nodup_append.mp hnd').2.2 nw (List.mem_map.mpr ⟨(nw, a), hl, rfl⟩) nw hu rfl
  · rw [stack_apply_ne hut] at hu
    have hown := (h.records.owner u nw hu).2
    rw [hsem] at hown
    cases hown
    exact hut rfl

/-- A record whose flag is clear leaves as it is. -/
theorem leaves_nw (he : action s t ch f = some e) (hl : (nw, a) ∈ f.leaves)
    (hw : (s.nw nw).waiting = false) : (apply s t rest e).nw nw = s.nw nw := by
  have hsame : { s.nw nw with waiting := false } = s.nw nw := by rw [← hw]
  cases f with
  | noteDequeue n x b p =>
    obtain ⟨e, he', rfl⟩ := Option.map_eq_some_iff.mp he
    cases p <;> try exact absurd hl List.not_mem_nil
    cases List.mem_singleton.mp hl
    rw [nw_apply]
    simp only [noteDequeue] at he'
    split at he' <;> cases he'
    · simp only [Eff.map, if_true]
      exact hsame
    · rfl
  | counterDequeue n x p =>
    obtain ⟨e, he', rfl⟩ := Option.map_eq_some_iff.mp he
    cases p <;> try exact absurd hl List.not_mem_nil
    cases List.mem_singleton.mp hl
    rw [nw_apply]
    simp only [counterDequeue, hw] at he'
    cases he'
    rfl
  | semWait d cancel p =>
    obtain ⟨e, he', rfl⟩ := Option.map_eq_some_iff.mp he
    cases cancel <;> cases p <;> try exact absurd hl List.not_mem_nil
    cases List.mem_singleton.mp hl
    rw [nw_apply]
    simp only [semWaitWithCancel, Option.map_some] at he'
    split at he' <;> cases he'
    · simp [Eff.map]
    · rfl
  | _ => exact absurd hl List.not_mem_nil

/-- The fields of a record that is gone stay. -/
theorem Gone.nw_eq {i : T × Act τ} (hg : Gone s nw) (h : Safe s) (hs : step i s = some s') :
    s'.nw nw = s.nw nw := by
  obtain ⟨-, ⟨c, -, -, rfl⟩ | ⟨ch, f, rest, e, -, hst, he, rfl⟩ | ⟨-, rfl⟩ | ⟨x, -, -, rfl⟩⟩ :=
    step_cases hs
  · rfl
  · have htouch := (hg.untouched h).access i.1 ch f rest e hst he
    rw [nw_apply]
    cases e with
    | newRecords k b f' =>
      simp only
      have hlt := hg.allocated
      rw [if_neg (by omega)]
    | pushWaiter n x f' =>
      simp only
      rw [if_neg fun hx => htouch (Or.inl hx.symm)]
    | removeWaiter n x b f' =>
      simp only
      rw [if_neg fun hx => htouch (Or.inl hx.symm)]
    | pushCounter n x f' =>
      simp only
      rw [if_neg fun hx => htouch (Or.inl hx.symm)]
    | removeCounter n x f' =>
      simp only
      rw [if_neg fun hx => htouch (Or.inl hx.symm)]
    | setWaiting x b f' =>
      simp only
      rw [if_neg fun hx => htouch hx.symm]
    | post x f' =>
      simp only
      rw [if_neg fun hx => htouch hx.symm]
    | _ => rfl
  · rfl
  · rfl

/-! ## Records that are woken -/

/-- The record was on the list of the object when the object was ready: it goes on to be
woken, or it has been woken once and is gone. -/
def Tracked (s : State T τ) (nw : ℕ) (a : Waitable) : Prop :=
  (∃ o, (nw, a) ∈ joinedBy (s.stack o) ∧ (board s).Track nw a) ∨
    (Gone s nw ∧ (s.nw nw).waiting = false ∧ (s.nw nw).posts = 1)

/-- A record stays joined until its owner takes it off. -/
theorem Safe.joined_or_leaves (h : Safe s) {i : T × Act τ} (hs : step i s = some s')
    (hj : (nw, a) ∈ joinedBy (s.stack u)) : (nw, a) ∈ joinedBy (s'.stack u) ∨
      ∃ ch f rest e, u = i.1 ∧ s.stack i.1 = f :: rest ∧ action s i.1 ch f = some e ∧
        s' = apply s i.1 rest e ∧ (nw, a) ∈ f.leaves := by
  obtain ⟨-, ⟨c, -, hnil, rfl⟩ | ⟨ch, f, rest, e, -, hst, he, rfl⟩ | ⟨-, rfl⟩ | ⟨x, -, -, rfl⟩⟩ :=
    step_cases hs
  · by_cases hu : u = i.1
    · subst hu
      rw [hnil] at hj
      exact absurd hj List.not_mem_nil
    · rw [State.setStack_stack_of_ne _ _ hu]
      exact Or.inl hj
  · by_cases hu : u = i.1
    · subst hu
      have hperm := joinedBy_stack (hst ▸ h.locks.stack.stack i.1)
        (h.locals i.1 f (hst ▸ List.mem_cons_self)) he
      rw [hst] at hj
      rcases List.mem_append.mp (hperm.mem_iff.mpr (List.mem_append_right _ hj)) with hl | hj'
      · exact Or.inr ⟨ch, f, rest, e, rfl, hst, he, rfl, hl⟩
      · rw [stack_apply hst]
        exact Or.inl hj'
    · rw [stack_apply_ne hu]
      exact Or.inl hj
  · exact Or.inl hj
  · exact Or.inl hj

theorem Tracked.next {i : T × Act τ} (hk : Tracked s nw a) (h : Safe s) (hl : Legal i s)
    (hs : step i s = some s') : Tracked s' nw a := by
  rcases hk with ⟨o, hj, ht⟩ | ⟨hg, hw, hp⟩
  · rcases h.joined_or_leaves hs hj with hj' | ⟨ch, f, rest, e, rfl, hst, he, rfl, hleaves⟩
    · exact Or.inl ⟨o, hj', ht.moves h.good hj (step_moves hs hl.2 h) hj'⟩
    · obtain ⟨⟨hidle, hheld⟩, -⟩ := leaves_cases hleaves
      have hq : (board s).Quiet a := h.locks.quiet hst hidle (hst ▸ hheld rest)
      obtain ⟨-, hw, hp⟩ := ht.of_quiet h.good hj hq
      have hsame : (apply s i.1 rest e).nw nw = s.nw nw := leaves_nw he hleaves hw
      refine Or.inr ⟨h.gone_of_leaves hst he hleaves, ?_, ?_⟩
      · rw [hsame]
        exact hw
      · rw [hsame]
        exact hp
  · refine Or.inr ⟨hg.next h hs, ?_, ?_⟩
    · rw [hg.nw_eq h hs]
      exact hw
    · rw [hg.nw_eq h hs]
      exact hp

theorem Safe.quiet_of_free (h : Safe s) (ha : s.mu a = none) : (board s).Quiet a := by
  intro u hu
  have hmu : s.mu a = some u := (h.locks.mu a).mpr (holds_of_waker hu)
  rw [ha] at hmu
  cases hmu

/-- When the mutex is free, a record that was on the list of the ready object has been
woken once. -/
theorem Tracked.woken (hk : Tracked s nw a) (h : Safe s) (ha : s.mu a = none) :
    nw ∉ s.waiters a ∧ (s.nw nw).waiting = false ∧ (s.nw nw).posts = 1 := by
  rcases hk with ⟨o, hj, ht⟩ | ⟨hg, hw, hp⟩
  · exact ht.of_quiet h.good hj (h.quiet_of_free ha)
  · exact ⟨hg.unlisted h a, hw, hp⟩

theorem Tracked.of_listed (h : Safe s) (hm : nw ∈ s.waiters a) (hr : s.Ready a) :
    Tracked s nw a := by
  obtain ⟨o, ho⟩ := h.good.listed nw a hm
  exact Or.inl ⟨o, ho, .listed hm hr⟩

theorem Tracked.reach (hk : Tracked s nw a) (h : Safe s) (hr : Reach step Legal s s') :
    Tracked s' nw a := by
  have hboth : Safe s' ∧ Tracked s' nw a :=
    hr.invariant (I := fun x => Safe x ∧ Tracked x nw a) ⟨h, hk⟩
      fun _ _ _ _ hx hl hs => ⟨step_safe hs hl hx.1, hx.2.next hx.1 hl hs⟩
  exact hboth.2

/-! ## Records that have left -/

def LeftOk (s : State T τ) : Prop := ∀ t, ∀ f ∈ s.stack t, ∀ nw, f.left = some nw → Gone s nw

theorem resume_left (f : Frame τ) (v : Val τ) : (f.resume v).left = f.left := by
  unfold Frame.resume
  repeat' split
  all_goals rfl

theorem place_left (he : action s t ch f = some e) (hf' : e.place = some f')
    (hn : f'.left = some nw) : f.left = some nw ∨ ∃ a, (nw, a) ∈ f.leaves := by
  cases f with
  | noteDequeue n x b p =>
    obtain ⟨e, he', rfl⟩ := Option.map_eq_some_iff.mp he
    cases p with
    | unlink =>
      refine Or.inr ⟨.note n, ?_⟩
      simp only [noteDequeue] at he'
      split at he' <;> cases he' <;> cases hf' <;> cases hn <;> exact List.mem_cons_self
    | _ =>
      simp only [noteDequeue, lockNote] at he'
      (repeat' split at he') <;> cases he' <;> cases hf' <;> exact Or.inl hn
  | counterDequeue n x p =>
    obtain ⟨e, he', rfl⟩ := Option.map_eq_some_iff.mp he
    cases p with
    | unlink =>
      refine Or.inr ⟨.counter n, ?_⟩
      simp only [counterDequeue] at he'
      split at he' <;> cases he' <;> cases hf' <;> cases hn <;> exact List.mem_cons_self
    | _ =>
      simp only [counterDequeue, lockCounterMu] at he'
      (repeat' split at he') <;> cases he' <;> cases hf' <;> exact Or.inl hn
  | _ =>
    obtain ⟨q, rfl⟩ := place_of_map he hf'
    cases hn

theorem step_leftOk {i : T × Act τ} (hs : step i s = some s') (h : Safe s) (hl : LeftOk s) :
    LeftOk s' := by
  have hstep := hs
  obtain ⟨-, ⟨c, -, -, rfl⟩ | ⟨ch, f, rest, e, -, hst, he, rfl⟩ | ⟨-, rfl⟩ | ⟨x, -, -, rfl⟩⟩ :=
    step_cases hs
  · refine forall_frames_call (P := fun _ g => ∀ nw, g.left = some nw →
      Gone (s.setStack i.1 [c.frame]) nw) (fun u g hg nw hn => ?_) ?_
    · exact (hl u g hg nw hn).next h hstep
    · intro nw hn
      cases c <;> cases hn
  · have hf : f ∈ s.stack i.1 := hst ▸ List.mem_cons_self
    refine forall_frames_apply (P := fun _ g => ∀ nw, g.left = some nw → Gone s nw) hst hl
      (fun u g hg nw hn => (hg nw hn).next h hstep) ?_ ?_ ?_
    · intro f' hf' nw hn
      rcases place_left he hf' hn with hn | ⟨a, ha⟩
      · exact (hl i.1 f hf nw hn).next h hstep
      · exact h.gone_of_leaves hst he ha
    · intro g hg nw hn
      have hentry := callee_entry he (action_fits he (h.locks.stack.past i.1 f hf)) hg
      cases hentry <;> cases hn
    · rintro v c l rfl rfl nw hn
      rw [resume_left] at hn
      exact (hl i.1 c (hst ▸ List.mem_cons_of_mem f List.mem_cons_self) nw hn).next h hstep
  · exact fun u g hg nw hn => (hl u g hg nw hn).next h hstep
  · exact fun u g hg nw hn => (hl u g hg nw hn).next h hstep

/-! ## Flags -/

/-- The records of `nsync_wait_n` that no object has seen yet, or that have left, have
clear flags. -/
def FlagsOk (s : State T τ) : Prop :=
  ∀ t, ∀ f ∈ s.stack t, ∀ nw ∈ f.owned, (∀ a, (nw, a) ∉ joinedBy (s.stack t)) →
    (s.nw nw).waiting = false

/-- Operations only clear the flags of records that stay unjoined. -/
theorem Safe.flag_apply (h : Safe s) (hst : s.stack t = f :: rest) (he : action s t ch f = some e)
    (hnw : nw < s.nws ∧ (s.nw nw).sem = some u) (hw : (s.nw nw).waiting = false)
    (hj : ∀ a, (nw, a) ∉ joinedBy ((apply s t rest e).stack u)) :
    ((apply s t rest e).nw nw).waiting = false := by
  have hallow := action_allowed he
  have hok : StackOk (f :: rest) := hst ▸ h.locks.stack.stack t
  have hf : f ∈ s.stack t := hst ▸ List.mem_cons_self
  have hperm := joinedBy_stack hok (h.locals t f hf) he
  -- A record that joins is joined afterwards.
  have hjoins : ∀ a, nw ∈ f.pending → (nw, a) ∈ f.joins e → f.leaves = [] → False := by
    intro a hp hmem hleaves
    have hown := (h.records.owner t nw (by
      rw [hst]
      exact List.mem_append_left _ (List.mem_append_left _ hp))).2
    rw [hnw.2] at hown
    cases hown
    refine hj a ?_
    rw [stack_apply hst]
    have := hperm.mem_iff.mpr (List.mem_append_left _ hmem)
    rwa [hleaves, List.nil_append] at this
  rw [nw_apply]
  cases e with
  | pushWaiter n x f' =>
    simp only
    split
    · next hx =>
      subst hx
      rcases hallow with rfl | ⟨d, rfl⟩
      · exact (hjoins _ List.mem_cons_self List.mem_cons_self rfl).elim
      · exact (hjoins _ List.mem_cons_self List.mem_cons_self rfl).elim
    · exact hw
  | pushCounter n x f' =>
    simp only
    split
    · next hx =>
      subst hx
      have hf : f = .counterEnqueue n nw .link := hallow
      subst hf
      exact (hjoins _ List.mem_cons_self List.mem_cons_self rfl).elim
    · exact hw
  | removeWaiter n x b f' =>
    simp only
    split
    · next hx =>
      subst hx
      rcases hallow with ⟨y, rfl⟩ | ⟨d, o, y, rfl⟩
      · simp only [action, noteDequeue, Option.map_some] at he
        split at he <;> cases he
        rfl
      · simp only [action, semWaitWithCancel, Option.map_some] at he
        split at he <;> cases he
        exact hw
    · exact hw
  | setWaiting x b f' =>
    simp only
    split
    · next hx =>
      subst hx
      rcases hallow with ⟨m, q, rfl⟩ | ⟨c, d, old, rfl⟩ | ⟨m, rfl⟩ | ⟨c, rfl⟩
      · cases he
        rfl
      · cases he
        rfl
      · simp only [action, noteEnqueue, Option.map_some] at he
        split at he <;> cases he
        rfl
      · simp only [action, counterEnqueue, Option.map_some] at he
        split at he <;> cases he
        rfl
    · exact hw
  | removeCounter n x f' =>
    simp only
    split
    · rfl
    · exact hw
  | newRecords k b f' =>
    simp only
    rw [if_neg (by omega)]
    exact hw
  | post x f' =>
    simp only
    split <;> exact hw
  | _ => exact hw

/-- The flag of a record of `nsync_wait_n` is clear when it leaves. -/
theorem Safe.flag_leaves (h : Safe s) (hst : s.stack t = f :: rest)
    (he : action s t ch f = some e) (hl : (nw, a) ∈ f.leaves) (hf : f.fn ≠ .client) :
    ((apply s t rest e).nw nw).waiting = false := by
  obtain ⟨⟨hidle, hheld⟩, hjoined⟩ := leaves_cases hl
  have hq : (board s).Quiet a := h.locks.quiet hst hidle (hst ▸ hheld rest)
  have hj : (nw, a) ∈ joinedBy (s.stack t) := by
    rw [hst]
    exact List.mem_append_left _ hjoined
  by_cases hw : (s.nw nw).waiting = false
  · rw [leaves_nw he hl hw]
    exact hw
  · rw [nw_apply]
    cases f with
    | noteDequeue n x b p =>
      obtain ⟨e, he', rfl⟩ := Option.map_eq_some_iff.mp he
      cases p <;> try exact absurd hl List.not_mem_nil
      cases List.mem_singleton.mp hl
      simp only [noteDequeue] at he'
      split at he' <;> cases he'
      · simp [Eff.map]
      · next hr =>
        have hnil : s.waiters (.note n) = [] := h.good.drained (.note n) (not_lt.mp hr) hq
        refine absurd (h.good.passed t nw _ hj ?_ fun u hu => hq u (by rw [hu]; rfl)) hw
        change nw ∉ s.waiters (.note n)
        rw [hnil]
        exact List.not_mem_nil
    | counterDequeue n x p =>
      obtain ⟨e, he', rfl⟩ := Option.map_eq_some_iff.mp he
      cases p <;> try exact absurd hl List.not_mem_nil
      cases List.mem_singleton.mp hl
      simp only [counterDequeue, Bool.eq_true_of_not_eq_false hw, if_true] at he'
      cases he'
      simp [Eff.map]
    | semWait d cancel p => exact absurd rfl hf
    | _ => exact absurd hl List.not_mem_nil

/-- The records of `nsync_wait_n` begin with clear flags. -/
theorem alloc_flag (he : action s t ch f = some e) (hf' : e.place = some f') (hnw : nw ∈ f'.owned)
    (hnew : nw ∈ e.allocates s.nws) : ((apply s t rest e).nw nw).waiting = false := by
  cases f with
  | waitN w p =>
    obtain ⟨e, he', rfl⟩ := Option.map_eq_some_iff.mp he
    cases p with
    | alloc =>
      cases he'
      have hrange := List.mem_range'_1.mp hnew
      rw [nw_apply]
      simp [Eff.map, hrange]
    | _ =>
      simp only [waitN, semaphoreP] at he'
      (repeat' split at he') <;> cases he' <;> exact absurd hnew List.not_mem_nil
  | _ =>
    obtain ⟨q, rfl⟩ := place_of_map he hf'
    exact absurd hnw List.not_mem_nil

theorem step_flagsOk {i : T × Act τ} (hs : step i s = some s') (h : Safe s) (hfl : FlagsOk s) :
    FlagsOk s' := by
  have hstep := hs
  obtain ⟨-, ⟨c, -, hnil, rfl⟩ | ⟨ch, f, rest, e, -, hst, he, rfl⟩ | ⟨-, rfl⟩ | ⟨x, -, -, rfl⟩⟩ :=
    step_cases hs
  · intro u g hg nw hnw hj
    by_cases hu : u = i.1
    · subst hu
      rw [State.setStack_stack_self, List.mem_singleton] at hg
      rw [hg, c.records.2] at hnw
      exact absurd hnw List.not_mem_nil
    · rw [State.setStack_stack_of_ne _ _ hu] at hg hj
      exact hfl u g hg nw hnw hj
  · have hf : f ∈ s.stack i.1 := hst ▸ List.mem_cons_self
    have hfits := action_fits he (h.locks.stack.past i.1 f hf)
    -- A record that was owned before.
    have hold : ∀ u, ∀ g ∈ s.stack u, ∀ nw ∈ g.owned,
        (∀ a, (nw, a) ∉ joinedBy ((apply s i.1 rest e).stack u)) →
        ((apply s i.1 rest e).nw nw).waiting = false := by
      intro u g hg nw hnw hj
      by_cases hjoin : ∃ a, (nw, a) ∈ joinedBy (s.stack u)
      · obtain ⟨a, ha⟩ := hjoin
        rcases h.joined_or_leaves hstep ha with ha' | ⟨ch', f', rest', e', rfl, hst', he', heq, hl⟩
        · exact absurd ha' (hj a)
        · rw [hst] at hst'
          cases hst'
          rw [heq]
          refine h.flag_leaves hst he' hl fun hclient => ?_
          have hnil : rest = [] := (hst ▸ h.locks.stack.stack i.1 : StackOk (f :: rest)).client hclient
          rw [hst, hnil, List.mem_singleton] at hg
          subst hg
          cases g <;> first | exact absurd hnw List.not_mem_nil | exact absurd hl List.not_mem_nil
      · exact h.flag_apply hst he (h.records.owned u g hg nw hnw)
          (hfl u g hg nw hnw fun a ha => hjoin ⟨a, ha⟩) hj
    refine forall_frames_apply (P := fun u g => g ∈ s.stack u) hst (fun u g hg => hg) hold ?_ ?_ ?_
    · intro f' hf' nw hnw hj
      rcases place_owned he hf' hnw with hnew | hnw
      · exact alloc_flag he hf' hnw hnew
      · exact hold i.1 f hf nw hnw hj
    · intro g hg nw hnw
      cases g with
      | waitN w p => exact absurd rfl (hfits.callee_ne_client hg)
      | _ => exact absurd hnw List.not_mem_nil
    · rintro v c l rfl rfl nw hnw hj
      rw [resume_owned] at hnw
      exact hold i.1 c (hst ▸ List.mem_cons_of_mem f List.mem_cons_self) nw hnw hj
  · exact hfl
  · exact hfl

end

end Nsync.Wait
