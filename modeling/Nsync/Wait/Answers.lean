import Nsync.Wait.Sound

/-!
# The calls find out what is true

Each function of the source passes on what it has read itself and what the functions that
it calls have answered, so that what the calls in progress know holds in all reached
states.
-/

set_option linter.unusedSectionVars false

namespace Nsync.Wait

open Nsync.Lib

variable {T τ : Type} [DecidableEq T] [LinearOrder τ] [OrderTop τ] [Zero τ] {s s' : State T τ}
  {t u : T} {ch : Choice} {f f' g c : Frame τ} {e : Eff τ (Frame τ)} {rest l : List (Frame τ)}
  {v : Val τ} {w : WaitN τ} {p : WaitPc τ} {n nw : ℕ} {a : Waitable}

/-! ## The place where a call goes on -/

theorem notifyChild_sound {q : Option ℕ} {p : ChildPc}
    (he : action s t ch (.notifyChild n q p) = some e) (hs : (Frame.notifyChild n q p).Sound s)
    (hne : p ≠ .store) (hf' : e.place = some f') : f'.Sound s := by
  obtain ⟨e, he', rfl⟩ := Option.map_eq_some_iff.mp he
  cases p with
  | test =>
    cases he'
    cases hf'
    split
    · trivial
    · next hr => exact not_lt.mp hr
  | store => exact absurd rfl hne
  | _ =>
    simp only [noteNotifyChild, lockNote] at he'
    (repeat' split at he') <;> cases he' <;> cases hf' <;> exact hs

theorem notify_sound {p : NotifyPc} (he : action s t ch (.notify n p) = some e)
    (hs : (Frame.notify n p).Sound s) (hf' : e.place = some f') : f'.Sound s := by
  obtain ⟨e, he', rfl⟩ := Option.map_eq_some_iff.mp he
  cases p with
  | test =>
    cases he'
    cases hf'
    split
    · trivial
    · next hr => exact not_lt.mp hr
  | _ =>
    simp only [notify, lockNote, tryLockNote] at he'
    (repeat' split at he') <;> cases he' <;> cases hf' <;> trivial

/-- What a reading of `NOTIFIED_TIME` says of the state that it is made in. -/
theorem answer_notifiedTime (s : State T τ) (n : ℕ) : Answer s n (s.note n).notifiedTime := by
  by_cases hr : (s.note n).notifiedTime ≤ 0
  · exact Or.inl ⟨hr, hr⟩
  · refine Or.inr ⟨not_le.mp hr, ?_⟩
    rw [Note.notifiedTime_eq] at hr ⊢
    split
    · next hnot =>
      rw [if_pos hnot] at hr
      exact absurd le_rfl hr
    · rfl

theorem deadline_sound {b : τ} {p : DeadlinePc τ} (he : action s t ch (.deadline n b p) = some e)
    (hs : (Frame.deadline n b p).Sound s) (hpast : b ≤ s.now) (hf' : e.place = some f') :
    f'.Sound s := by
  obtain ⟨e, he', rfl⟩ := Option.map_eq_some_iff.mp he
  cases p with
  | load =>
    cases he'
    cases hf'
    split
    · next hnot =>
      refine ⟨Or.inl ⟨le_rfl, ?_⟩, fun h => absurd h (lt_irrefl _)⟩
      change (s.note n).notifiedTime ≤ 0
      rw [Note.notifiedTime_eq, if_pos hnot]
    · trivial
  | lock =>
    simp only [noteNotifiedDeadline, lockNote] at he'
    split at he' <;> cases he'
    cases hf'
    trivial
  | read =>
    cases he'
    cases hf'
    exact answer_notifiedTime s n
  | unlock x =>
    cases he'
    cases hf'
    exact hs
  | check x =>
    simp only [noteNotifiedDeadline] at he'
    split at he'
    · cases he'
      cases hf'
      trivial
    · next hx =>
      cases he'
      cases hf'
      refine ⟨hs, fun h0 => ?_⟩
      exact hpast.trans_lt (not_le.mp fun hle => hx ⟨h0, hle⟩)
  | called => cases he'
  | result x =>
    cases he'
    cases hf'

theorem semWait_sound {d : τ} {cancel : Option ℕ} {p : SemPc τ}
    (he : action s t ch (.semWait d cancel p) = some e) (hs : (Frame.semWait d cancel p).Sound s)
    (hf' : e.place = some f') : f'.Sound s := by
  obtain ⟨e, he', rfl⟩ := Option.map_eq_some_iff.mp he
  cases cancel with
  | none =>
    cases p with
    | sleepOnly =>
      cases ch with
      | run =>
        simp only [semWaitWithCancel, semaphoreP] at he'
        split at he' <;> cases he'
        cases hf'
        exact Or.inl ⟨rfl, rfl⟩
      | fail =>
        simp only [semWaitWithCancel, semaphoreP] at he'
        split at he'
        · next hd =>
          cases he'
          cases hf'
          exact Or.inr ⟨rfl, rfl, hd⟩
        · cases he'
    | _ =>
      simp only [semWaitWithCancel, Option.bind_none, Option.map_none] at he'
      cases he' <;> cases hf' <;> trivial
  | some c =>
    cases p with
    | link nw =>
      simp only [semWaitWithCancel, Option.map_some, Option.some.injEq] at he'
      rcases answer_notifiedTime s c with ⟨hle, hr⟩ | ⟨hlt, hx⟩
      · rw [if_neg (not_lt.mpr hle)] at he'
        cases he'
        cases hf'
        exact Or.inl ⟨rfl, rfl, hr⟩
      · rw [if_pos hlt] at he'
        cases he'
        cases hf'
        split
        · next hd => exact Or.inl ⟨rfl, rfl, hx ▸ hd⟩
        · next hd => exact Or.inr ⟨rfl, hx, hx ▸ not_lt.mp hd⟩
    | sleep nw x nearer =>
      cases ch with
      | run =>
        simp only [semWaitWithCancel, semaphoreP, Option.bind_some] at he'
        split at he' <;> cases he'
        cases hf'
        exact .ok
      | fail =>
        simp only [semWaitWithCancel, semaphoreP, Option.bind_some] at he'
        split at he'
        · next hx =>
          rcases hs with ⟨rfl, rfl, hlt⟩ | ⟨rfl, rfl, hle⟩
          · cases he'
            cases hf'
            exact .timedOut hx hlt
          · cases he'
            cases hf'
            exact hle
        · cases he'
    | unlink nw o x =>
      simp only [semWaitWithCancel, Option.map_some] at he'
      split at he' <;> cases he' <;> cases hf' <;> exact Or.inr ⟨x, rfl, hs⟩
    | sleepOnly => exact hs.elim
    | _ =>
      simp only [semWaitWithCancel, lockNote, Option.bind_some, Option.map_some] at he'
      (repeat' split at he') <;> cases he' <;> cases hf' <;> trivial

theorem counterReady_sound {p : ReadyPc τ} (he : action s t ch (.counterReady n p) = some e)
    (hf' : e.place = some f') : f'.Sound s := by
  obtain ⟨e, he', rfl⟩ := Option.map_eq_some_iff.mp he
  cases p with
  | store =>
    cases he'
    cases hf'
    trivial
  | load =>
    cases he'
    cases hf'
    split
    · next hz => exact Or.inl ⟨rfl, hz⟩
    · exact Or.inr rfl
  | result r =>
    cases he'
    cases hf'

theorem noteEnqueue_sound {p : EnqueuePc} (he : action s t ch (.noteEnqueue n nw p) = some e)
    (hs : (Frame.noteEnqueue n nw p).Sound s) (hf' : e.place = some f') : f'.Sound s := by
  obtain ⟨e, he', rfl⟩ := Option.map_eq_some_iff.mp he
  cases p with
  | lock =>
    simp only [noteEnqueue, lockNote] at he'
    split at he' <;> cases he'
    cases hf'
    trivial
  | link =>
    simp only [noteEnqueue] at he'
    split at he'
    · cases he'
      cases hf'
      exact fun hb => by cases hb
    · next hr =>
      cases he'
      cases hf'
      exact fun _ => not_lt.mp hr
  | unlock b =>
    cases he'
    cases hf'
    exact hs
  | result b =>
    cases he'
    cases hf'

theorem counterEnqueue_sound {p : EnqueuePc}
    (he : action s t ch (.counterEnqueue n nw p) = some e)
    (hs : (Frame.counterEnqueue n nw p).Sound s) (hf' : e.place = some f') : f'.Sound s := by
  obtain ⟨e, he', rfl⟩ := Option.map_eq_some_iff.mp he
  cases p with
  | lock =>
    simp only [counterEnqueue, lockCounterMu] at he'
    split at he' <;> cases he'
    cases hf'
    trivial
  | link =>
    simp only [counterEnqueue] at he'
    split at he'
    · cases he'
      cases hf'
      exact fun hb => by cases hb
    · next hr =>
      cases he'
      cases hf'
      exact fun _ => not_not.mp hr
  | unlock b =>
    cases he'
    cases hf'
    exact hs
  | result b =>
    cases he'
    cases hf'

/-- A record that is leaving its object is on the list unless the object is ready. -/
theorem Safe.mem_waiters_iff (h : Safe s) (hst : s.stack t = f :: rest) (hidle : f.waker = .idle)
    (hheld : Holds (s.stack t) a) (hj : (nw, a) ∈ f.joined) : nw ∈ s.waiters a ↔ ¬ s.Ready a := by
  have hjoin : (nw, a) ∈ joinedBy (s.stack t) := by
    rw [hst]
    exact List.mem_append_left _ hj
  refine ⟨fun hm hr => ?_, h.good.kept t nw a hjoin⟩
  have hnil : s.waiters a = [] := h.good.drained a hr (h.locks.quiet hst hidle hheld)
  rw [hnil] at hm
  exact List.not_mem_nil hm

theorem noteDequeue_sound {b : τ} {p : DequeuePc} (h : Safe s)
    (hst : s.stack t = .noteDequeue n nw b p :: rest)
    (he : action s t ch (.noteDequeue n nw b p) = some e)
    (hs : (Frame.noteDequeue n nw b p).Sound s) (hf' : e.place = some f') : f'.Sound s := by
  obtain ⟨e, he', rfl⟩ := Option.map_eq_some_iff.mp he
  cases p with
  | unlink =>
    have hheld : Holds (s.stack t) (.note n) := by
      rw [hst]
      exact List.mem_append_left _ List.mem_cons_self
    have hmem : nw ∈ (s.note n).waiters ↔ ¬ s.Ready (.note n) :=
      h.mem_waiters_iff hst rfl hheld List.mem_cons_self
    simp only [noteDequeue] at he'
    split at he'
    · next hr =>
      cases he'
      cases hf'
      refine ⟨fun hd => ?_, decide_eq_true (hmem.mpr (not_le.mpr hr)), rfl⟩
      cases hd
    · next hr =>
      cases he'
      cases hf'
      exact ⟨fun _ => not_lt.mp hr, decide_eq_false fun hm => hmem.mp hm (not_lt.mp hr), rfl⟩
  | _ =>
    simp only [noteDequeue, lockNote] at he'
    (repeat' split at he') <;> cases he' <;> cases hf' <;> trivial

theorem counterDequeue_sound {p : DequeuePc} (h : Safe s)
    (hst : s.stack t = .counterDequeue n nw p :: rest)
    (he : action s t ch (.counterDequeue n nw p) = some e)
    (hs : (Frame.counterDequeue n nw p).Sound s) (hf' : e.place = some f') : f'.Sound s := by
  obtain ⟨e, he', rfl⟩ := Option.map_eq_some_iff.mp he
  cases p with
  | unlink =>
    have hheld : Holds (s.stack t) (.counter n) := by
      rw [hst]
      exact List.mem_append_left _ List.mem_cons_self
    have hmem : nw ∈ (s.counter n).waiters ↔ ¬ (s.counter n).value = 0#32 :=
      h.mem_waiters_iff hst rfl hheld List.mem_cons_self
    have hd : DequeueOk s (.counter n) ⟨(s.counter n).value ≠ 0#32, nw ∈ (s.counter n).waiters,
        (s.counter n).value = 0#32⟩ := by
      refine ⟨fun hd => ?_, ?_, ?_⟩
      · change (s.counter n).value = 0#32
        simpa using hd
      · simp [hmem]
      · simp
    simp only [counterDequeue] at he'
    split at he' <;> cases he' <;> cases hf' <;> exact hd
  | _ =>
    simp only [counterDequeue, lockCounterMu] at he'
    (repeat' split at he') <;> cases he' <;> cases hf' <;> trivial

/-! ## `nsync_wait_n` -/

theorem WaitN.bound_deadline (h : 0 < w.absDeadline) : w.Bound s w.absDeadline :=
  ⟨fun hle => absurd h (not_lt.mpr hle), fun _ => Or.inl rfl⟩

theorem WaitN.logOk_nil (h : w.log = []) : w.LogOk s := by
  intro k d a hd
  rw [h] at hd
  cases hd

/-- An object that is ready is a reason to stop. -/
theorem WaitN.cause_of_mem (ha : a ∈ w.waitable) (hi : w.i = w.waitable.length)
    (hr : s.Ready a) : w.Cause s 0 := by
  obtain ⟨k, hk⟩ := List.mem_iff_getElem?.mp ha
  have hlt : k < w.waitable.length := (List.getElem?_eq_some_iff.mp hk).1
  exact Or.inr (Or.inl ⟨k, a, Nat.zero_le k, hi ▸ hlt, hk, Or.inl hr⟩)

/-- The nearest time has come. -/
theorem WaitN.Bound.cause {m : τ} (hb : w.Bound s m) (hm : 0 < m) (hi : w.i = w.waitable.length)
    (hx : m ≤ s.now) : WaitN.Cause s { w with timedOut := some s.now } 0 := by
  rcases hb.2 hm with rfl | ⟨n, hn, rfl⟩
  · exact Or.inr (Or.inr ⟨hi, s.now, rfl, hx⟩)
  · obtain ⟨k, hk⟩ := List.mem_iff_getElem?.mp hn
    have hlt : k < w.waitable.length := (List.getElem?_eq_some_iff.mp hk).1
    exact Or.inr (Or.inl ⟨k, .note n, Nat.zero_le k, hi ▸ hlt, hk,
      Or.inr ⟨n, s.now, rfl, rfl, hx⟩⟩)

theorem waitN_sound (he : action s t ch (.waitN w p) = some e) (hs : w.Sound s p) (hok : w.Ok p)
    (hf' : e.place = some f') : f'.Sound s := by
  obtain ⟨e, he', rfl⟩ := Option.map_eq_some_iff.mp he
  cases p with
  | first =>
    simp only [waitN] at he'
    split at he'
    · cases he'
      cases hf'
      trivial
    · next hnone =>
      cases he'
      cases hf'
      split
      · trivial
      · have hq : w.queueing = false := WaitN.Unqueued.queueing hok
        simp only [Frame.Sound, WaitN.Sound, hq]
        intro a ha
        rw [hnone] at ha
        cases ha
  | unlockMu =>
    cases he'
    cases hf'
    have hd : 0 < w.absDeadline := hok.1.positive
    cases w.mu <;> exact ⟨fun hle => absurd hd (not_lt.mpr hle), fun _ => Or.inl rfl⟩
  | scan j m =>
    simp only [waitN] at he'
    split at he'
    · cases he'
      cases hf'
      exact hs
    · cases he'
      cases hf'
      split
      · next hm => exact ⟨hm, hs⟩
      · next hm =>
        obtain ⟨a, ha, hr⟩ := hs.1 (not_lt.mp hm)
        exact ⟨WaitN.cause_of_mem ha hok.2.1 hr, WaitN.logOk_nil hok.1.log⟩
  | sleep m =>
    cases ch with
    | run =>
      simp only [waitN, semaphoreP] at he'
      split at he' <;> cases he'
      cases hf'
      exact WaitN.bound_deadline hok.1.positive
    | fail =>
      simp only [waitN, semaphoreP] at he'
      split at he'
      · next hx =>
        cases he'
        cases hf'
        exact ⟨hs.2.cause hs.1 hok.2.1 hx, WaitN.logOk_nil hok.1.log⟩
      · cases he'
  | dequeue j =>
    simp only [waitN] at he'
    split at he'
    · next hj =>
      subst hj
      cases he'
      cases hf'
      split
      · exact hs
      · simp only [Frame.Sound, WaitN.Sound, hok.1.queueing, if_true]
        exact hs
    · split at he' <;> cases he'
      cases hf'
      exact hs.2
  | lockMu =>
    cases he'
    cases hf'
    simp only [Frame.Sound, WaitN.Sound, hok.1.queueing, if_true]
    exact hs
  | _ =>
    simp only [waitN] at he'
    (repeat' split at he') <;> cases he' <;> cases hf' <;> trivial

/-- The call knows where it goes on what it knew before, and what it has read. -/
theorem place_sound (h : Safe s) (hst : s.stack t = f :: rest) (he : action s t ch f = some e)
    (hs : f.Sound s) (hne : ∀ n q, f ≠ .notifyChild n q .store) (hf' : e.place = some f') :
    f'.Sound s := by
  have hf : f ∈ s.stack t := hst ▸ List.mem_cons_self
  cases f with
  | notifyChild n q p => exact notifyChild_sound he hs (fun hp => hne n q (hp ▸ rfl)) hf'
  | notify n p => exact notify_sound he hs hf'
  | deadline n b p => exact deadline_sound he hs (h.locks.stack.past t _ hf) hf'
  | isNotified n p =>
    obtain ⟨e, he', rfl⟩ := Option.map_eq_some_iff.mp he
    cases p <;> cases he' <;> cases hf'
    trivial
  | noteNotify n p =>
    obtain ⟨e, he', rfl⟩ := Option.map_eq_some_iff.mp he
    cases p <;> cases he' <;> cases hf' <;> trivial
  | counterReady n p => exact counterReady_sound he hf'
  | noteEnqueue n nw p => exact noteEnqueue_sound he hs hf'
  | counterEnqueue n nw p => exact counterEnqueue_sound he hs hf'
  | noteDequeue n nw b p => exact noteDequeue_sound h hst he hs hf'
  | counterDequeue n nw p => exact counterDequeue_sound h hst he hs hf'
  | semWait d cancel p => exact semWait_sound he hs hf'
  | waitN w p => exact waitN_sound he hs (h.locals t _ hf) hf'
  | _ =>
    obtain ⟨q, rfl⟩ := place_of_map he hf'
    trivial

/-! ## Returns -/

/-- What `ready_time` has answered. -/
theorem Readies.answer {x : τ} (ha : a.Readies f.fn) (hr : Returns f (.time x)) (hs : f.Sound s)
    (htop : (0 : τ) < ⊤) : (x ≤ 0 ∧ s.Ready a) ∨
      (0 < x ∧ (x = ⊤ ∨ ∃ n, a = .note n ∧ (s.note n).expiry = x)) := by
  cases hr with
  | deadline n b x =>
    cases a with
    | note m =>
      have hm : n = m := ha
      subst hm
      exact hs.1.imp id fun hx => ⟨hx.1, Or.inr ⟨n, rfl, hx.2.symm⟩⟩
    | counter m => exact ha.elim
  | counterReady n r =>
    cases a with
    | note m => exact ha.elim
    | counter m =>
      have hm : n = m := ha
      subst hm
      rcases hs with ⟨rfl, hready⟩ | rfl
      · exact Or.inl ⟨le_rfl, hready⟩
      · exact Or.inr ⟨htop, Or.inl rfl⟩

/-- What `enqueue` has answered. -/
theorem Enqueues.answer {b : Bool} (ha : a.Enqueues nw f.fn) (hr : Returns f (.bool b))
    (hs : f.Sound s) (hb : b = false) : s.Ready a := by
  cases hr with
  | isNotified n b => cases a <;> exact ha.elim
  | noteEnqueue n x b =>
    cases a with
    | note m => exact ha.1 ▸ hs hb
    | counter m => exact ha.elim
  | counterEnqueue n x b =>
    cases a with
    | note m => exact ha.elim
    | counter m => exact ha.1 ▸ hs hb

/-- What `dequeue` has answered. -/
theorem Dequeues.answer {b : Option τ} {d : Dequeued} (ha : a.Dequeues nw b f.fn)
    (hr : Returns f (.dequeued d)) (hs : f.Sound s) : DequeueOk s a d := by
  cases hr with
  | noteDequeue n x y d =>
    cases a with
    | note m => exact ha.1 ▸ hs
    | counter m => exact ha.elim
  | counterDequeue n x d =>
    cases a with
    | note m => exact ha.elim
    | counter m => exact ha.1 ▸ hs

theorem WaitN.LogOk.snoc {d : Dequeued} (h : w.LogOk s) (ha : w.waitable[w.log.length]? = some a)
    (hd : DequeueOk s a d) (r : ℕ) : WaitN.LogOk s { w with log := w.log ++ [d], ready := r } := by
  intro k d' a' hk hk'
  change (w.log ++ [d])[k]? = some d' at hk
  change w.waitable[k]? = some a' at hk'
  rw [List.getElem?_append] at hk
  split at hk
  · exact h k d' a' hk hk'
  · next hlen =>
    have hk0 : k - w.log.length = 0 := by
      have := (List.getElem?_eq_some_iff.mp hk).1
      rw [List.length_singleton] at this
      omega
    have heq : k = w.log.length := by omega
    subst heq
    rw [hk0] at hk
    cases hk
    rw [ha] at hk'
    cases hk'
    exact hd

theorem WaitN.Cause.snoc {d : Dequeued} {j : ℕ} (h : d.wasQueued = false ∨ w.Cause s j) (r : ℕ) :
    WaitN.Cause s { w with log := w.log ++ [d], ready := r } j := by
  rcases h with hd | ⟨d', hd', hq⟩ | h | h
  · exact Or.inl ⟨d, List.mem_append_right _ List.mem_cons_self, hd⟩
  · exact Or.inl ⟨d', List.mem_append_left _ hd', hq⟩
  · exact Or.inr (Or.inl h)
  · exact Or.inr (Or.inr h)

/-- The calls of `nsync_wait_n` have answered. -/
theorem waitN_resume_sound (hr : Returns f v) (hc : (Frame.waitN w p).Calls f.fn) (hs : f.Sound s)
    (hw : w.Sound s p) (hok : w.Ok p) (htop : (0 : τ) < ⊤)
    (hover : ∀ j d, p = .dequeueCalled j → v = .dequeued d →
      d.wasQueued = false ∨ w.Cause s (j + 1)) : ((Frame.waitN w p).resume v).Sound s := by
  cases p with
  | firstCalled =>
    obtain ⟨a, ha, hreadies⟩ := hc
    cases v with
    | time x =>
      rcases Readies.answer hreadies hr hs htop with ⟨hx, hready⟩ | ⟨hx, -⟩
      · have hq : w.queueing = false := WaitN.Unqueued.queueing hok
        simp only [Frame.resume, not_lt.mpr hx, if_false, Frame.Sound, WaitN.Sound, hq]
        intro b hb
        rw [ha] at hb
        cases hb
        exact hready
      · simp only [Frame.resume, hx, if_true]
        trivial
    | _ => trivial
  | enqueueCalled =>
    obtain ⟨a, ha, henqueues⟩ := hc
    cases v with
    | bool b =>
      by_cases hb : w.i + 1 = w.waitable.length ∨ b = true
      · simp only [Frame.resume, hb, if_true]
        trivial
      · simp only [Frame.resume, hb, if_false]
        have hbf : b = false := by
          cases b with
          | true => exact absurd (Or.inr rfl) hb
          | false => rfl
        refine ⟨Or.inr (Or.inl ⟨w.i, a, Nat.zero_le _, Nat.lt_succ_self _, ha, Or.inl ?_⟩), ?_⟩
        · exact Enqueues.answer henqueues hr hs hbf
        · exact WaitN.logOk_nil (w := { w with i := w.i + 1 }) hok.1.log
    | _ => trivial
  | scanCalled j m =>
    obtain ⟨a, ha, hreadies⟩ := hc
    cases v with
    | time x =>
      have hmem : a ∈ w.waitable := List.mem_of_getElem? ha
      simp only [Frame.resume]
      split
      · next hxm =>
        rcases Readies.answer hreadies hr hs htop with ⟨hx, hready⟩ | ⟨hx, htop' | ⟨n, rfl, hn⟩⟩
        · exact ⟨fun _ => ⟨a, hmem, hready⟩, fun h0 => absurd h0 (not_lt.mpr hx)⟩
        · subst htop'
          exact absurd hxm not_top_lt
        · exact ⟨fun h0 => absurd hx (not_lt.mpr h0), fun _ => Or.inr ⟨n, hmem, hn⟩⟩
      · exact hw
    | _ => exact hw
  | dequeueCalled j =>
    obtain ⟨a, ha, hdequeues⟩ := hc
    cases v with
    | dequeued d =>
      have hd := Dequeues.answer hdequeues hr hs
      refine ⟨WaitN.Cause.snoc (hover j d rfl rfl) _, WaitN.LogOk.snoc hw ?_ hd _⟩
      rw [hok.1.log]
      exact ha
    | _ => exact hw
  | _ => exact hc.elim

theorem resume_sound (hr : Returns f v) (hc : c.Calls f.fn) (hs : f.Sound s) (hcs : c.Sound s)
    (hok : c.LocalsOk) (htop : (0 : τ) < ⊤)
    (hover : ∀ w j d, c = .waitN w (.dequeueCalled j) → v = .dequeued d →
      d.wasQueued = false ∨ w.Cause s (j + 1)) : (c.resume v).Sound s := by
  cases c with
  | waitN w p =>
    exact waitN_resume_sound hr hc hs hcs hok htop fun j d hp => hover w j d (by rw [hp])
  | notifyChild n q p =>
    cases p with
    | called child next => exact hcs
    | _ => exact hc.elim
  | notify n p =>
    cases p with
    | called q =>
      have hn : s.Ready (.note n) := by
        cases hr with
        | notifyChild m q' => exact hc.1 ▸ hs
        | _ => exact hc.elim
      cases q <;> exact hn
    | _ => exact hc.elim
  | deadline n b p =>
    cases p with
    | called =>
      cases hr with
      | notify m =>
        have hm : m = n := hc
        subst hm
        exact ⟨Or.inl ⟨le_rfl, hs⟩, fun h0 => absurd h0 (lt_irrefl _)⟩
      | _ => exact hc.elim
    | _ => exact hc.elim
  | isNotified n p =>
    cases p with
    | called =>
      cases hr with
      | deadline m b x =>
        have hm : m = n := hc
        subst hm
        intro hx
        rcases hs.1 with ⟨-, hready⟩ | ⟨hlt, -⟩
        · exact hready
        · exact absurd hlt (not_lt.mpr (of_decide_eq_true hx))
      | _ => exact hc.elim
    | _ => exact hc.elim
  | noteNotify n p =>
    cases p with
    | called =>
      cases hr with
      | deadline m b x =>
        have hm : m = n := hc
        subst hm
        simp only [Frame.resume]
        rcases hs.1 with ⟨hx, hready⟩ | ⟨hx, -⟩
        · rw [if_neg (not_lt.mpr hx)]
          exact hready
        · rw [if_pos hx]
          trivial
      | _ => exact hc.elim
    | notifyCalled =>
      cases hr with
      | notify m =>
        have hm : m = n := hc
        exact hm ▸ hs
      | _ => exact hc.elim
    | _ => exact hc.elim
  | noteDequeue n nw b p =>
    cases p with
    | called =>
      cases hr with
      | deadline m y x =>
        obtain ⟨rfl, hby⟩ : m = n ∧ b ≤ y := hc
        rcases hs.1 with ⟨-, hready⟩ | ⟨hx, heq⟩
        · exact Or.inl hready
        · exact Or.inr (hby.trans_lt (heq ▸ hs.2 hx))
      | _ => exact hc.elim
    | _ => exact hc.elim
  | semWait d cancel p =>
    cases cancel with
    | none => cases p <;> exact hc.elim
    | some k =>
      cases p with
      | called =>
        cases hr with
        | deadline m y x =>
          have hm : m = k := hc
          subst hm
          simp only [Frame.resume]
          rcases hs.1 with ⟨hx, hready⟩ | ⟨hx, -⟩
          · rw [if_neg (not_lt.mpr hx)]
            exact Or.inl ⟨rfl, rfl, hready⟩
          · rw [if_pos hx]
            trivial
        | _ => exact hc.elim
      | notifyCalled nw =>
        cases hr with
        | noteNotify m =>
          have hm : m = k := hc
          subst hm
          exact .cancelled hcs hs
        | _ => exact hc.elim
      | _ => exact hc.elim
  | noteNew q d p =>
    cases p with
    | called n => cases hr <;> trivial
    | _ => exact hc.elim
  | _ => exact hc.elim

end Nsync.Wait
