import Nsync.Wait.Contract

/-!
# The functions of a waitable

The contract of `nsync_waitable_funcs_s` as a property of every reached state: what holds
of the records of `nsync_wait_n` whenever the mutex of an object is free, what one call of
`enqueue` and of `dequeue` does in its critical section, what happens to the records of an
object that becomes ready, and what later calls of `ready_time` answer.
-/

set_option linter.unusedSectionVars false

namespace Nsync.Wait

open Nsync.Lib

variable {T τ : Type}

/-! ## Answers of `ready_time` -/

/-- The call of `ready_time` for the object begins. -/
def Frame.begins (a : Waitable) : Frame τ → Bool
  | .deadline n _ .load => decide (a = .note n)
  | .counterReady c .store => decide (a = .counter c)
  | _ => false

/-- The time that a call of `ready_time` for the object has read. -/
def Frame.reading (a : Waitable) : Frame τ → Option τ
  | .deadline n _ (.unlock x) | .deadline n _ (.check x) | .deadline n _ (.result x) =>
      if a = .note n then some x else none
  | .counterReady c (.result x) => if a = .counter c then some x else none
  | _ => none

/-- The time that a call of `ready_time` for the object is about to return. -/
def Frame.reports (a : Waitable) : Frame τ → Option τ
  | .deadline n _ (.result x) => if a = .note n then some x else none
  | .counterReady c (.result x) => if a = .counter c then some x else none
  | _ => none

/-- A history variable: the threads that have begun a call of `ready_time` for the
object. -/
def asked [DecidableEq T] (a : Waitable) (i : T × Act τ) (_s s' : State T τ) (k : T → Bool) :
    T → Bool :=
  match i.2, s'.stack i.1 with
  | .step _, g :: _ => if g.begins a then Function.update k i.1 true else k
  | _, _ => k

section

variable [DecidableEq T] [LinearOrder τ] [OrderTop τ] [Zero τ] {s s' : State T τ} {t u : T}
  {ch : Choice} {f f' g c : Frame τ} {e : Eff τ (Frame τ)} {rest l : List (Frame τ)} {v : Val τ}
  {w : WaitN τ} {p : WaitPc τ} {nw : ℕ} {a : Waitable} {k : T → Bool}

theorem reading_of_reports {x : τ} (h : f.reports a = some x) : f.reading a = some x := by
  unfold Frame.reports at h
  split at h <;> first | exact h | cases h

/-- What has been asked after the object was ready has been answered with zero. -/
structure Settled (s : State T τ) (a : Waitable) (k : T → Bool) : Prop where
  ready : s.Ready a
  note : ∀ n, a = .note n → n < s.notes
  counter : ∀ c, a = .counter c → (s.counter c).waited = true
  zero : ∀ u g l x, k u = true → s.stack u = g :: l → g.reading a = some x → x ≤ 0

theorem place_reading {x : τ} (he : action s t ch f = some e) (hf' : e.place = some f')
    (hr : s.Ready a) (hf : ∀ x, f.reading a = some x → x ≤ 0) (hx : f'.reading a = some x) :
    x ≤ 0 := by
  cases f with
  | deadline n b p =>
    obtain ⟨e, he', rfl⟩ := Option.map_eq_some_iff.mp he
    cases p with
    | load =>
      cases he'
      cases hf'
      split at hx
      · simp only [Frame.reading] at hx
        split at hx <;> cases hx
        exact le_rfl
      · cases hx
    | lock =>
      simp only [noteNotifiedDeadline, lockNote] at he'
      split at he' <;> cases he'
      cases hf'
      cases hx
    | read =>
      cases he'
      cases hf'
      simp only [Frame.reading] at hx
      split at hx
      · next hn =>
        subst hn
        cases hx
        exact hr
      · cases hx
    | unlock y =>
      cases he'
      cases hf'
      exact hf x hx
    | check y =>
      simp only [noteNotifiedDeadline] at he'
      split at he'
      · cases he'
        cases hf'
        cases hx
      · cases he'
        cases hf'
        exact hf x hx
    | called => cases he'
    | result y =>
      cases he'
      cases hf'
  | counterReady n p =>
    obtain ⟨e, he', rfl⟩ := Option.map_eq_some_iff.mp he
    cases p with
    | store =>
      cases he'
      cases hf'
      cases hx
    | load =>
      cases he'
      cases hf'
      simp only [Frame.reading] at hx
      split at hx
      · next hn =>
        subst hn
        have hz : (s.counter n).value = 0#32 := hr
        rw [if_pos hz] at hx
        cases hx
        exact le_rfl
      · cases hx
    | result y =>
      cases he'
      cases hf'
  | _ =>
    obtain ⟨q, rfl⟩ := place_of_map he hf'
    cases hx

theorem resume_reading {x : τ} (hc : c.Calls f.fn) (hx : (c.resume v).reading a = some x) :
    x ≤ 0 := by
  cases c with
  | deadline n b p =>
    cases p with
    | called =>
      simp only [Frame.resume, Frame.reading] at hx
      split at hx <;> cases hx
      exact le_rfl
    | _ => exact hc.elim
  | counterReady n p => exact hc.elim
  | _ =>
    exfalso
    unfold Frame.resume at hx
    (repeat' split at hx) <;> first | cases hx | contradiction

/-- A thread that has begun its call since then finds the object ready. -/
theorem Settled.zero_apply (hk : Settled s a k) (h : Safe s) {i : T × Act τ}
    (hi : i.2 = .step ch) (hst : s.stack i.1 = f :: rest) (he : action s i.1 ch f = some e)
    {x : τ} (hkt : asked a i s (apply s i.1 rest e) k i.1 = true)
    (hg : (apply s i.1 rest e).stack i.1 = g :: l) (hx : g.reading a = some x) : x ≤ 0 := by
  have hf : f ∈ s.stack i.1 := hst ▸ List.mem_cons_self
  -- The call has not just begun, so it had begun before.
  have hbefore : k i.1 = true := by
    simp only [asked, hi, hg] at hkt
    split at hkt
    · next hb =>
      exfalso
      unfold Frame.begins at hb
      split at hb <;> first | cases hx | cases hb
    · exact hkt
  rw [stack_apply hst] at hg
  have hzero : ∀ y, f.reading a = some y → y ≤ 0 := fun y hy =>
    hk.zero i.1 f rest y hbefore hst hy
  obtain ⟨f', hf', heq⟩ | ⟨v, rfl, heq⟩ | ⟨rfl, heq⟩ := e.stack_cases f rest
  · rw [heq] at hg
    cases hcallee : e.callee with
    | some g' =>
      rw [hcallee] at hg
      cases hg
      have hentry := callee_entry he (action_fits he (h.locks.stack.past i.1 f hf)) hcallee
      cases hentry <;> cases hx
    | none =>
      rw [hcallee] at hg
      cases hg
      exact place_reading he hf' hk.ready hzero hx
  · rw [heq] at hg
    cases rest with
    | nil => cases hg
    | cons c l' =>
      cases hg
      have hcalls : c.Calls f.fn := (hst ▸ h.locks.stack.stack i.1 : StackOk (f :: c :: l)).1
      exact resume_reading hcalls hx
  · rw [heq] at hg
    cases hg
    exact hzero x hx

theorem asked_of_ne {i : T × Act τ} (hu : u ≠ i.1) : asked a i s s' k u = k u := by
  unfold asked
  cases i.2 with
  | step ch =>
    cases s'.stack i.1 with
    | nil => rfl
    | cons g l =>
      simp only
      by_cases hb : g.begins a = true
      · rw [if_pos hb]
        exact Function.update_of_ne hu _ _
      · rw [if_neg hb]
  | _ => rfl

theorem Settled.next {i : T × Act τ} (hk : Settled s a k) (h : Safe s) (hl : Legal i s)
    (hs : step i s = some s') : Settled s' a (asked a i s s' k) := by
  obtain ⟨-, ⟨c, hi, hnil, rfl⟩ | ⟨ch, f, rest, e, hi, hst, he, rfl⟩ | ⟨hi, rfl⟩ |
    ⟨x, hi, -, rfl⟩⟩ := step_cases hs
  · refine ⟨?_, hk.note, hk.counter, fun u g l x hu hg hx => ?_⟩
    · have := hk.ready
      cases a <;> exact this
    · simp only [asked, hi] at hu
      by_cases hut : u = i.1
      · subst hut
        rw [State.setStack_stack_self] at hg
        cases hg
        cases c <;> cases hx
      · rw [State.setStack_stack_of_ne _ _ hut] at hg
        exact hk.zero u g l x hu hg hx
  · have hcalm : ∀ c d old, f = .counterAdd c d (.cas old) → (s.counter c).value = old →
        assertsHold d (old + d) (s.counter c).waited = true := by
      intro c d old hf hv
      have hc := hl.2
      rw [Calm, hi, hst, hf] at hc
      exact hc hv
    refine ⟨?_, fun n hn => ?_, fun c hc => waited_mono (hk.counter c hc),
      fun u g l x hu hg hx => ?_⟩
    · have hr := hk.ready
      cases a with
      | note n => exact notifiedTime_apply_le (hk.note n rfl) hr
      | counter c => exact ready_counter he hcalm (hk.counter c rfl) hr
    · rw [notes_apply]
      exact (hk.note n hn).trans_le (Nat.le_add_right _ _)
    · by_cases hut : u = i.1
      · subst hut
        exact hk.zero_apply h hi hst he hu hg hx
      · rw [asked_of_ne hut] at hu
        rw [stack_apply_ne hut] at hg
        exact hk.zero u g l x hu hg hx
  · simp only [asked, hi]
    refine ⟨?_, hk.note, hk.counter, hk.zero⟩
    have := hk.ready
    cases a <;> exact this
  · simp only [asked, hi]
    refine ⟨?_, hk.note, hk.counter, hk.zero⟩
    have := hk.ready
    cases a <;> exact this

theorem Settled.reach (hk : Settled s a k) (h : Safe s) {k' : T → Bool}
    (hr : Reach (withHistory step (asked a)) (fun i p => Legal i p.1) (s, k) (s', k')) :
    Settled s' a k' := by
  have hboth : Safe s' ∧ Settled s' a k' := by
    refine hr.invariant (I := fun p => Safe p.1 ∧ Settled p.1 a p.2) ⟨h, hk⟩ ?_
    intro i p q _ hp hl hs
    obtain ⟨x, hx, rfl⟩ := Option.map_eq_some_iff.mp hs
    exact ⟨step_safe hx hl hp.1, hp.2.next hp.1 hl hx⟩
  exact hboth.2

/-- A report of zero is true, and the object is known. -/
theorem Settled.of_report {x : τ} (h : Safe s) (hi : Informed s) (htop : (0 : τ) < ⊤)
    (hst : s.stack t = f :: rest) (hx : f.reports a = some x) (hle : x ≤ 0) :
    Settled s a fun _ => false := by
  have hf : f ∈ s.stack t := hst ▸ List.mem_cons_self
  have hsound := hi.sound t f hf
  have hzero : ∀ u g l y, (fun _ : T => false) u = true → s.stack u = g :: l →
      g.reading a = some y → y ≤ 0 := fun _ _ _ _ hu => by cases hu
  unfold Frame.reports at hx
  split at hx
  · split at hx
    · next hn =>
      subst hn
      cases hx
      refine ⟨?_, fun m hm => ?_, fun c hc => by (cases hc), hzero⟩
      · rcases hsound.1 with ⟨-, hr⟩ | ⟨hlt, -⟩
        · exact hr
        · exact absurd hlt (not_lt.mpr hle)
      · cases hm
        exact h.locks.ids.known t _ hf _ List.mem_cons_self
    · cases hx
  · split at hx
    · next hn =>
      subst hn
      cases hx
      refine ⟨?_, fun n hn => by (cases hn), fun c hc => ?_, hzero⟩
      · rcases hsound with ⟨-, hr⟩ | rfl
        · exact hr
        · exact absurd htop (not_lt.mpr hle)
      · cases hc
        exact h.waited t _ hf
    · cases hx
  · cases hx

/-! ## The records of `nsync_wait_n` -/

/-- A client call is the outermost one. -/
theorem StackOk.getLast_client (hok : StackOk l) (hf : f ∈ l) (hc : f.fn = .client) :
    l.getLast? = some f := by
  induction l with
  | nil => cases hf
  | cons g l ih =>
    rcases List.mem_cons.mp hf with rfl | hf
    · rw [hok.client hc]
      rfl
    · cases l with
      | nil => cases hf
      | cons c l =>
        rw [List.getLast?_cons_cons]
        exact ih hok.2 hf

/-- The functions that `nsync_wait_n` calls use its records for its objects. -/
theorem joined_callee (hc : (Frame.waitN w p).Calls g.fn) {x : ℕ × Waitable} (hx : x ∈ g.joined) :
    ∃ j, w.waitable[j]? = some x.2 ∧ x.1 = w.nw + j := by
  cases g with
  | noteEnqueue n y q =>
    cases p <;> try exact hc.elim
    all_goals
      obtain ⟨b, hb, hg⟩ := hc
      cases b <;> try exact hg.elim
    cases q <;> first
      | exact absurd hx List.not_mem_nil
      | (cases List.mem_singleton.mp hx
         exact ⟨_, hg.1 ▸ hb, hg.2⟩)
  | counterEnqueue n y q =>
    cases p <;> try exact hc.elim
    all_goals
      obtain ⟨b, hb, hg⟩ := hc
      cases b <;> try exact hg.elim
    cases q <;> first
      | exact absurd hx List.not_mem_nil
      | (cases List.mem_singleton.mp hx
         exact ⟨_, hg.1 ▸ hb, hg.2⟩)
  | noteDequeue n y z q =>
    cases p <;> try exact hc.elim
    all_goals
      obtain ⟨b, hb, hg⟩ := hc
      cases b <;> try exact hg.elim
    cases q <;> first
      | exact absurd hx List.not_mem_nil
      | (cases List.mem_singleton.mp hx
         exact ⟨_, hg.1 ▸ hb, hg.2.1⟩)
  | counterDequeue n y q =>
    cases p <;> try exact hc.elim
    all_goals
      obtain ⟨b, hb, hg⟩ := hc
      cases b <;> try exact hg.elim
    cases q <;> first
      | exact absurd hx List.not_mem_nil
      | (cases List.mem_singleton.mp hx
         exact ⟨_, hg.1 ▸ hb, hg.2⟩)
  | semWait d cancel q => exact absurd rfl (Calls.ne_client hc)
  | waitN w' q => exact absurd rfl (Calls.ne_client hc)
  | _ => exact absurd hx List.not_mem_nil

/-- The records that a call of `nsync_wait_n` has enqueued are at its objects. -/
theorem joined_waitN (hok : StackOk l) (hlast : l.getLast? = some (.waitN w p)) :
    ∀ x ∈ joinedBy l, ∃ j, w.waitable[j]? = some x.2 ∧ x.1 = w.nw + j := by
  induction l with
  | nil => cases hlast
  | cons g l ih =>
    intro x hx
    cases l with
    | nil =>
      cases hlast
      have hmem : ∀ k, x ∈ w.joinedFrom k → ∃ j, w.waitable[j]? = some x.2 ∧ x.1 = w.nw + j := by
        intro k hk
        obtain ⟨j, -, hj⟩ := List.mem_filterMap.mp hk
        obtain ⟨b, hb, rfl⟩ := Option.map_eq_some_iff.mp hj
        exact ⟨j, hb, rfl⟩
      have hx' : x ∈ (Frame.waitN w p).joined := by simpa [joinedBy] using hx
      cases p <;> first | exact hmem _ hx' | exact absurd hx' List.not_mem_nil
    | cons c l =>
      rw [List.getLast?_cons_cons] at hlast
      rcases List.mem_append.mp hx with hg | hrest
      · -- Only `nsync_wait_n` calls a function that uses a record.
        have hc : ∃ w' p', c = .waitN w' p' := by
          rcases Calls.waitN_or hok.1 with hc | hk
          · exact hc
          · cases g <;> first | exact absurd hg List.not_mem_nil | exact hk.elim
        obtain ⟨w', p', rfl⟩ := hc
        rw [hok.2.client rfl] at hlast
        cases hlast
        exact joined_callee hok.1 hg
      · exact ih hok.2 hlast x hrest

/-- The flag of a record says whether it is on the list of its object. -/
theorem Safe.flag_iff (h : Safe s) (hfl : FlagsOk s) (hf : .waitN w p ∈ s.stack t)
    (hq : w.queueing = true) {j : ℕ} (hj : w.waitable[j]? = some a) (hfree : s.mu a = none) :
    (s.nw (w.nw + j)).waiting = true ↔ w.nw + j ∈ s.waiters a := by
  have hlt : j < w.waitable.length := (List.getElem?_eq_some_iff.mp hj).1
  have hown : w.nw + j ∈ (Frame.waitN w p).owned := by
    simp [Frame.owned, hq, List.mem_range'_1, hlt]
  have hquiet := h.quiet_of_free hfree
  have hlisted : w.nw + j ∈ s.waiters a → (s.nw (w.nw + j)).waiting = true :=
    fun hm => (h.good.queued _ a hm).1
  refine ⟨fun hw => ?_, hlisted⟩
  by_contra hnot
  by_cases hjoin : ∃ b, (w.nw + j, b) ∈ joinedBy (s.stack t)
  · obtain ⟨b, hb⟩ := hjoin
    have hok := h.locks.stack.stack t
    obtain ⟨j', hj', heq⟩ := joined_waitN hok (hok.getLast_client hf rfl) _ hb
    have hjj : j = j' := by
      simp only at heq
      omega
    subst hjj
    rw [hj] at hj'
    cases hj'
    have := h.good.passed t _ _ hb hnot fun u hu => hquiet u (by rw [hu]; rfl)
    exact absurd (this.symm.trans hw) (by simp)
  · have := hfl t _ hf _ hown fun b hb => hjoin ⟨b, hb⟩
    rw [this] at hw
    cases hw

/-! ## Critical sections -/

/-- A call of `enqueue` in its critical section. -/
def Waitable.linking (nw : ℕ) : Waitable → Frame τ
  | .note n => .noteEnqueue n nw .link
  | .counter c => .counterEnqueue c nw .link

/-- A call of `enqueue` at the end of its critical section, which will return `b`. -/
def Waitable.linked (nw : ℕ) (b : Bool) : Waitable → Frame τ
  | .note n => .noteEnqueue n nw (.unlock b)
  | .counter c => .counterEnqueue c nw (.unlock b)

/-- A call of `dequeue` in its critical section. -/
def Waitable.unlinking (nw : ℕ) (since : τ) : Waitable → Frame τ
  | .note n => .noteDequeue n nw since .unlink
  | .counter c => .counterDequeue c nw .unlink

/-- A call of `dequeue` at the end of its critical section, which will return what `d`
says. -/
def Waitable.unlinked (nw : ℕ) (since : τ) (d : Dequeued) : Waitable → Frame τ
  | .note n => .noteDequeue n nw since (.unlock d)
  | .counter c => .counterDequeue c nw (.unlock d)

/-- A call of `dequeue` that is about to return. -/
def Waitable.dequeued (nw : ℕ) (since : τ) (d : Dequeued) : Waitable → Frame τ
  | .note n => .noteDequeue n nw since (.result d)
  | .counter c => .counterDequeue c nw (.result d)

theorem Safe.linking_step (h : Safe s) (hst : s.stack t = a.linking nw :: rest)
    (hs : step (t, .step ch) s = some s') :
    ∃ b, s'.stack t = a.linked nw b :: rest ∧ (b = false ↔ s.Ready a) ∧
      (nw ∈ s'.waiters a ↔ b = true) := by
  obtain ⟨-, ⟨c, hc, -, -⟩ | ⟨ch', f, rest', e, -, hst', he, rfl⟩ | ⟨hc, -⟩ | ⟨x, hc, -, -⟩⟩ :=
    step_cases hs
  · cases hc
  · have hunlisted : ∀ b, nw ∉ s.waiters b := by
      refine fun b hm => h.good.not_mem_list (h.unused hst ?_) b hm
      cases a <;> exact List.mem_cons_self
    rw [hst] at hst'
    cases hst'
    cases a with
    | note n =>
      simp only [Waitable.linking, action, noteEnqueue, Option.map_some] at he
      split at he
      · next hr =>
        cases he
        refine ⟨true, stack_apply hst, ?_, ?_⟩
        · exact iff_of_false (by simp) (not_le.mpr hr)
        · simp only [Eff.map, waiters_push.1, Function.update_self]
          simp
      · next hr =>
        cases he
        refine ⟨false, stack_apply hst, iff_of_true rfl (not_lt.mp hr), ?_⟩
        exact iff_of_false (hunlisted (.note n)) (by simp)
    | counter c =>
      simp only [Waitable.linking, action, counterEnqueue, Option.map_some] at he
      split at he
      · next hr =>
        cases he
        refine ⟨true, stack_apply hst, ?_, ?_⟩
        · exact iff_of_false (by simp) hr
        · simp only [Eff.map, waiters_push.2, Function.update_self]
          simp
      · next hr =>
        cases he
        refine ⟨false, stack_apply hst, iff_of_true rfl (not_not.mp hr), ?_⟩
        exact iff_of_false (hunlisted (.counter c)) (by simp)
  · cases hc
  · cases hc

theorem Safe.unlinking_step (h : Safe s) {since : τ} (hst : s.stack t = a.unlinking nw since :: rest)
    (hl : Legal (t, .step ch) s) (hs : step (t, .step ch) s = some s') :
    ∃ d, s'.stack t = a.unlinked nw since d :: rest ∧
      (d.wasQueued = true ↔ nw ∈ s.waiters a) ∧ nw ∉ s'.waiters a := by
  have hleaves : (nw, a) ∈ (a.unlinking nw since : Frame τ).leaves := by
    cases a <;> exact List.mem_cons_self
  obtain ⟨⟨hidle, hheld⟩, hjoined⟩ := leaves_cases hleaves
  have hmem : nw ∈ s.waiters a ↔ ¬ s.Ready a :=
    h.mem_waiters_iff hst hidle (hst ▸ hheld rest) hjoined
  have hsafe := step_safe hs hl h
  obtain ⟨-, ⟨c, hc, -, -⟩ | ⟨ch', f, rest', e, -, hst', he, rfl⟩ | ⟨hc, -⟩ | ⟨x, hc, -, -⟩⟩ :=
    step_cases hs
  · cases hc
  · rw [hst] at hst'
    cases hst'
    have hgone := (h.gone_of_leaves hst he hleaves).unlisted hsafe a
    cases a with
    | note n =>
      simp only [Waitable.unlinking, action, noteDequeue, Option.map_some] at he
      split at he
      · next hr =>
        cases he
        exact ⟨_, stack_apply hst, iff_of_true rfl (hmem.mpr (not_le.mpr hr)), hgone⟩
      · next hr =>
        cases he
        refine ⟨_, stack_apply hst, iff_of_false (by simp) fun hm => ?_, hgone⟩
        exact hmem.mp hm (not_lt.mp hr)
    | counter c =>
      have hd : decide ((s.counter c).value ≠ 0#32) = true ↔ nw ∈ s.waiters (.counter c) := by
        rw [hmem, decide_eq_true_eq]
        exact Iff.rfl
      simp only [Waitable.unlinking, action, counterDequeue, Option.map_some] at he
      split at he <;> cases he <;> exact ⟨_, stack_apply hst, hd, hgone⟩
  · cases hc
  · cases hc

/-- A thread that wakes records can always go on. -/
theorem waker_goes_on (hw : f.waker.on = some a) (ch : Choice) : (action s t ch f).isSome = true := by
  cases f with
  | notifyChild n q p =>
    cases p with
    | wake => rfl
    | clear x => rfl
    | post x => rfl
    | _ => cases hw
  | counterAdd c d p =>
    cases p with
    | check old => rfl
    | wake old => rfl
    | clear old x => rfl
    | post old x => rfl
    | _ => cases hw
  | _ => cases hw

/-! ## The contract -/

/-- The contract of `nsync_waitable_funcs_s` in the state `s`, for all objects. -/
structure Contract (s : State T τ) : Prop where
  /-- The flag of a record of `nsync_wait_n` says whether it is on the list. -/
  flag : ∀ t w p, .waitN w p ∈ s.stack t → w.queueing = true → ∀ j a, w.waitable[j]? = some a →
    s.mu a = none → ((s.nw (w.nw + j)).waiting = true ↔ w.nw + j ∈ s.waiters a)
  empty : ∀ a, s.mu a = none → s.Ready a → s.waiters a = []
  enqueue : ∀ t ch a nw rest s', s.stack t = a.linking nw :: rest →
    step (t, .step ch) s = some s' → ∃ b, s'.stack t = a.linked nw b :: rest ∧
      (b = false ↔ s.Ready a) ∧ (nw ∈ s'.waiters a ↔ b = true)
  /-- The records on the list of a ready object are woken, by a thread that nothing keeps
  from it. -/
  waking : ∀ a, s.Ready a → s.waiters a ≠ [] → ∃ u f rest, s.stack u = f :: rest ∧
    f.waker.on = some a ∧ ∀ ch, (action s u ch f).isSome = true
  woken : ∀ a nw, nw ∈ s.waiters a → s.Ready a → ∀ s', Reach step Legal s s' → s'.mu a = none →
    nw ∉ s'.waiters a ∧ (s'.nw nw).waiting = false ∧ (s'.nw nw).posts = 1
  dequeue : ∀ t ch a nw since rest s', s.stack t = a.unlinking nw since :: rest →
    Legal (t, .step ch) s → step (t, .step ch) s = some s' →
    ∃ d, s'.stack t = a.unlinked nw since d :: rest ∧ (d.wasQueued = true ↔ nw ∈ s.waiters a) ∧
      nw ∉ s'.waiters a
  /-- Calls of `ready_time` that begin after one that answers zero answer zero. -/
  zero : ∀ t f rest a x, s.stack t = f :: rest → f.reports a = some x → x ≤ 0 →
    ∀ s' k, Reach (withHistory step (asked a)) (fun i p => Legal i p.1) (s, fun _ => false) (s', k) →
    ∀ u g l y, k u = true → s'.stack u = g :: l → g.reports a = some y → y ≤ 0
  /-- Nobody accesses a record after `dequeue` has returned. -/
  gone : ∀ t (a : Waitable) nw since d rest, s.stack t = a.dequeued nw since d :: rest →
    ∀ s', Reach step Legal s s' → Untouched s' nw

/-- Notes and counters keep the contract in every reached state. -/
theorem waitables_keep_contract {value : ℕ → Word} {sem : T → ℕ} {now : τ} (htop : (0 : τ) < ⊤)
    (h : Reach step Legal (initial value sem now) s) : Contract s := by
  have hsafe := reach_safe h
  have hinf := reach_informed h htop
  have hrest : FlagsOk s ∧ LeftOk s := by
    have hall : Safe s ∧ FlagsOk s ∧ LeftOk s :=
      h.invariant (I := fun x => Safe x ∧ FlagsOk x ∧ LeftOk x)
        ⟨safe_initial value sem now, fun _ _ hf => absurd hf List.not_mem_nil,
          fun _ _ hf => absurd hf List.not_mem_nil⟩
        fun _ _ _ _ hx hl hs => ⟨step_safe hs hl hx.1, step_flagsOk hs hx.1 hx.2.1,
          step_leftOk hs hx.1 hx.2.2⟩
    exact hall.2
  constructor
  · intro t w p hf hq j a hj hfree
    exact hsafe.flag_iff hrest.1 hf hq hj hfree
  · intro a hfree hr
    exact hsafe.good.drained a hr (hsafe.quiet_of_free hfree)
  · intro t ch a nw rest s' hst hs
    exact hsafe.linking_step hst hs
  · intro a hr hne
    have hbusy : ¬ (board s).Quiet a := fun hq => hne (hsafe.good.drained a hr hq)
    obtain ⟨u, hu⟩ := not_forall.mp hbusy
    have hon : (wakerOf (s.stack u)).on = some a := not_not.mp hu
    cases hst : s.stack u with
    | nil =>
      rw [hst] at hon
      cases hon
    | cons f rest =>
      rw [hst] at hon
      exact ⟨u, f, rest, hst, hon, waker_goes_on hon⟩
  · intro a nw hm hr s' hs' hfree
    have htrack : Tracked s nw a := .of_listed hsafe hm hr
    exact (htrack.reach hsafe hs').woken (reach_safe (h.trans hs')) hfree
  · intro t ch a nw since rest s' hst hl hs
    exact hsafe.unlinking_step hst hl hs
  · intro t f rest a x hst hx hle s' k hs' u g l y hu hg hy
    have hset : Settled s a fun _ => false := .of_report hsafe hinf htop hst hx hle
    exact (hset.reach hsafe hs').zero u g l y hu hg (reading_of_reports hy)
  · intro t a nw since d rest hst s' hs'
    have hgone : Gone s nw := by
      refine hrest.2 t _ (hst ▸ List.mem_cons_self) nw ?_
      cases a <;> rfl
    exact (hgone.reach hsafe hs').untouched (reach_safe (h.trans hs'))

end

/-- One thread waits for a note, and the other one has begun to notify it. -/
def rousedRun : List (Bool × Act (WithTop ℕ)) :=
  (true, .call (.noteNew none ⊤)) :: List.replicate 11 (true, .step .run) ++
    (false, .call (.waitN true 7 [.counter 0, .note 0])) ::
      List.replicate 37 (false, .step .run) ++
    (true, .call (.noteNotify 0)) :: List.replicate 14 (true, .step .run)

theorem waitables_keep_contract_roused :
    ∃ s : State Bool (WithTop ℕ), Reach step Legal (initial (fun _ => 1#32) (fun _ => 0) 0) s ∧
      s.Ready (.note 0) ∧ 1 ∈ s.waiters (.note 0) ∧ Contract s := by
  have hrun : ((exec step legalCheck rousedRun
      (initial (fun _ => 1#32) (fun _ : Bool => 0) (0 : WithTop ℕ))).map fun s =>
        decide ((s.note 0).notifiedTime ≤ 0 ∧ 1 ∈ (s.note 0).waiters)) = some true := by
    decide +kernel
  obtain ⟨s, hs, hf⟩ := Reach.exists_of_exec legal_of_check hrun
  have hready : (s.note 0).notifiedTime ≤ 0 ∧ 1 ∈ (s.note 0).waiters := of_decide_eq_true hf
  have htop : (0 : WithTop ℕ) < ⊤ := by decide
  exact ⟨s, hs, hready.1, hready.2, waitables_keep_contract htop hs⟩

end Nsync.Wait
