import Nsync.Wait.Deadlock

/-!
# The locals of `nsync_wait_n`

What the locals of a call of `nsync_wait_n` say about its past: how far the loops have
come, what the calls of `dequeue` have found and which of `unlock` and `lock` have been
called.
-/

set_option linter.unusedSectionVars false

namespace Nsync.Wait

open Nsync.Lib

variable {T τ : Type} [DecidableEq T] [LinearOrder τ] [OrderTop τ] [Zero τ] {s s' : State T τ}
  {t u : T} {ch : Choice} {f f' g : Frame τ} {e : Eff τ (Frame τ)} {rest l : List (Frame τ)}
  {v : Val τ} {w : WaitN τ} {p : WaitPc τ}

/-- The index of the first object that was not still enqueued, or `count`. -/
def firstReady (log : List Dequeued) (count : ℕ) : ℕ :=
  (log.findIdx? fun d => !d.wasQueued).getD count

namespace WaitN

/-- No record has been allocated. -/
structure Unqueued (w : WaitN τ) : Prop where
  queueing : w.queueing = false
  i : w.i = 0
  log : w.log = []
  muCalls : w.muCalls = []
  unlocked : w.unlocked = false
  timedOut : w.timedOut = none
  ready : w.ready ≤ w.waitable.length

/-- The call waits for the objects, which were not ready at first. -/
structure Queueing (w : WaitN τ) : Prop where
  queueing : w.queueing = true
  positive : 0 < w.absDeadline
  ready : w.ready = w.waitable.length
  i : w.i ≤ w.waitable.length
  log : w.log = []
  timedOut : w.timedOut = none

/-- The records before the one with the index `j` have been dequeued. -/
structure Dequeueing (w : WaitN τ) (j : ℕ) : Prop where
  queueing : w.queueing = true
  positive : 0 < w.absDeadline
  i : w.i ≤ w.waitable.length
  index : j ≤ w.i
  log : w.log.length = j
  ready : w.ready = firstReady w.log w.waitable.length
  unlocked : w.unlocked = true → w.mu = true

/-- What the locals say at each place. -/
def Ok (w : WaitN τ) : WaitPc τ → Prop
  | .first | .firstCalled => w.Unqueued
  | .alloc => w.Unqueued ∧ w.ready = w.waitable.length ∧ 0 < w.absDeadline
  | .enqueue | .enqueueCalled => w.Queueing ∧ w.unlocked = false ∧ w.muCalls = []
  | .unlockMu => w.Queueing ∧ w.i = w.waitable.length ∧ w.unlocked = false ∧ w.muCalls = []
  | .scan _ _ | .scanCalled _ _ | .sleep _ => w.Queueing ∧ w.i = w.waitable.length ∧
      w.unlocked = w.mu ∧ w.muCalls = if w.mu then [.unlock] else []
  | .dequeue j => w.Dequeueing j ∧ w.muCalls = if w.unlocked then [.unlock] else []
  | .dequeueCalled j => w.Dequeueing j ∧ j < w.i ∧ w.muCalls = if w.unlocked then [.unlock] else []
  | .lockMu => w.Dequeueing w.i ∧ w.unlocked = true ∧ w.muCalls = [.unlock]
  | .result => (w.Unqueued ∧ (w.ready = w.waitable.length → w.absDeadline ≤ 0)) ∨
      w.Dequeueing w.i ∧ w.muCalls = if w.unlocked then [.unlock, .lock] else []

end WaitN

/-- The locals are in order if the call is one of `nsync_wait_n`. -/
def Frame.LocalsOk : Frame τ → Prop
  | .waitN w p => w.Ok p
  | _ => True

theorem firstReady_append {log : List Dequeued} {n : ℕ} (h : log.length < n) (d : Dequeued) :
    firstReady (log ++ [d]) n =
      if !d.wasQueued && decide (firstReady log n = n) then log.length else firstReady log n := by
  unfold firstReady
  rw [List.findIdx?_append, List.findIdx?_singleton]
  cases hlog : log.findIdx? fun d => !d.wasQueued with
  | none => cases d.wasQueued <;> simp
  | some k =>
    have hk : k < log.length := (List.findIdx?_eq_some_iff_findIdx_eq.mp hlog).1
    have hne : ¬ k = n := by omega
    simp [hne]

/-- Nothing has been dequeued yet. -/
theorem WaitN.Queueing.dequeueing (h : w.Queueing) (hu : w.unlocked = true → w.mu = true) :
    w.Dequeueing 0 := by
  refine ⟨h.queueing, h.positive, h.i, Nat.zero_le _, ?_, ?_, hu⟩
  · rw [h.log, List.length_nil]
  · rw [h.ready, h.log]
    rfl

/-! ## Steps -/

theorem waitN_localsOk {q : WaitN τ × WaitPc τ} {e : Eff τ (WaitN τ × WaitPc τ)}
    (h : waitN s t w ch p = some e) (hq : e.place = some q) (hw : w.Ok p) : q.1.Ok q.2 := by
  cases p with
  | first =>
    rw [waitN] at h
    cases hv : w.waitable[w.ready]? with
    | some v =>
      rw [hv] at h
      cases h
      cases hq
      exact hw
    | none =>
      rw [hv] at h
      cases h
      cases hq
      have hlen : w.ready = w.waitable.length :=
        le_antisymm hw.ready (List.getElem?_eq_none_iff.mp hv)
      by_cases hd : 0 < w.absDeadline
      · simp only [hd, if_true]
        exact ⟨hw, hlen, hd⟩
      · simp only [hd, if_false]
        exact Or.inl ⟨hw, fun _ => not_lt.mp hd⟩
  | firstCalled => cases h
  | alloc =>
    cases h
    cases hq
    obtain ⟨hu, hr, hd⟩ := hw
    refine ⟨⟨rfl, hd, hr, ?_, hu.log, hu.timedOut⟩, hu.unlocked, hu.muCalls⟩
    rw [hu.i]
    exact Nat.zero_le _
  | enqueue =>
    rw [waitN] at h
    cases hv : w.waitable[w.i]? with
    | some v =>
      rw [hv] at h
      cases h
      cases hq
      exact hw
    | none =>
      rw [hv] at h
      cases h
      cases hq
      exact ⟨hw.1, le_antisymm hw.1.i (List.getElem?_eq_none_iff.mp hv), hw.2⟩
  | enqueueCalled => cases h
  | unlockMu =>
    cases h
    cases hq
    obtain ⟨hw, hi, hu, hm⟩ := hw
    cases hmu : w.mu with
    | true =>
      refine ⟨⟨hw.queueing, hw.positive, hw.ready, hw.i, hw.log, hw.timedOut⟩, hi, ?_, ?_⟩
      · simp
      · simp [hm]
    | false => exact ⟨hw, hi, by simp [hmu, hu], by simp [hm, hmu]⟩
  | scan j m =>
    rw [waitN] at h
    cases hv : w.waitable[j]? with
    | some v =>
      rw [hv] at h
      cases h
      cases hq
      exact hw
    | none =>
      rw [hv] at h
      cases h
      cases hq
      by_cases hm : 0 < m
      · simp only [hm, if_true]
        exact hw
      · simp only [hm, if_false]
        obtain ⟨hw, hi, hu, hc⟩ := hw
        exact ⟨hw.dequeueing fun h => hu ▸ h, by rw [hc, hu]⟩
  | scanCalled j m => cases h
  | sleep m =>
    cases ch with
    | run =>
      simp only [waitN, semaphoreP] at h
      split at h
      · cases h
        cases hq
        exact hw
      · cases h
    | fail =>
      simp only [waitN, semaphoreP] at h
      split at h
      · cases h
        cases hq
        obtain ⟨hw, hi, hu, hc⟩ := hw
        have hd := hw.dequeueing fun h => hu ▸ h
        exact ⟨⟨hd.queueing, hd.positive, hd.i, hd.index, hd.log, hd.ready, hd.unlocked⟩,
          by rw [hc, hu]⟩
      · cases h
  | dequeue j =>
    rw [waitN] at h
    by_cases hj : j = w.i
    · rw [if_pos hj] at h
      cases h
      cases hq
      obtain ⟨hw, hc⟩ := hw
      cases hu : w.unlocked with
      | true =>
        simp only [if_true]
        exact ⟨hj ▸ hw, hu, by rw [hc, hu]; rfl⟩
      | false =>
        refine Or.inr ⟨hj ▸ hw, ?_⟩
        rw [hc, hu]
        rfl
    · rw [if_neg hj] at h
      cases hv : w.waitable[j]? with
      | some v =>
        rw [hv] at h
        cases h
        cases hq
        exact ⟨hw.1, lt_of_le_of_ne hw.1.index hj, hw.2⟩
      | none =>
        rw [hv] at h
        cases h
  | dequeueCalled j => cases h
  | lockMu =>
    cases h
    cases hq
    obtain ⟨hw, hu, hc⟩ := hw
    refine Or.inr ⟨⟨hw.queueing, hw.positive, hw.i, hw.index, hw.log, hw.ready, hw.unlocked⟩, ?_⟩
    simp [hc, hu]
  | result =>
    cases h
    cases hq

theorem resume_localsOk {k : Fn τ} (hf : f.LocalsOk) (hc : f.Calls k) (v : Val τ) :
    (f.resume v).LocalsOk := by
  cases f with
  | waitN w p =>
    cases p with
    | firstCalled =>
      obtain ⟨a, ha, -⟩ := hc
      have hlt : w.ready < w.waitable.length := (List.getElem?_eq_some_iff.mp ha).1
      cases v with
      | time x =>
        by_cases hx : 0 < x
        · simp only [Frame.resume, hx, if_true]
          have hw : w.Unqueued := hf
          exact ⟨hw.queueing, hw.i, hw.log, hw.muCalls, hw.unlocked, hw.timedOut, hlt⟩
        · simp only [Frame.resume, hx, if_false]
          exact Or.inl ⟨hf, fun h => absurd h hlt.ne⟩
      | _ => exact hf
    | enqueueCalled =>
      obtain ⟨a, ha, -⟩ := hc
      have hlt : w.i < w.waitable.length := (List.getElem?_eq_some_iff.mp ha).1
      cases v with
      | bool b =>
        obtain ⟨hw, hu, hm⟩ := hf
        have hw' : WaitN.Queueing { w with i := w.i + 1 } :=
          ⟨hw.queueing, hw.positive, hw.ready, hlt, hw.log, hw.timedOut⟩
        by_cases hb : w.i + 1 = w.waitable.length ∨ b = true
        · simp only [Frame.resume, hb, if_true]
          exact ⟨hw', hu, hm⟩
        · simp only [Frame.resume, hb, if_false]
          refine ⟨hw'.dequeueing fun h => ?_, ?_⟩
          · rw [hu] at h
            cases h
          · simp [hu, hm]
      | _ => exact hf
    | scanCalled j m =>
      cases v with
      | time x => exact hf
      | _ => exact hf
    | dequeueCalled j =>
      cases v with
      | dequeued d =>
        obtain ⟨hw, hj, hm⟩ := hf
        have hlen : w.log.length < w.waitable.length := by
          rw [hw.log]
          exact hj.trans_le hw.i
        refine ⟨⟨hw.queueing, hw.positive, hw.i, hj, ?_, ?_, hw.unlocked⟩, hm⟩
        · simp [hw.log]
        · rw [firstReady_append hlen, ← hw.ready, hw.log]
      | _ => exact hf
    | _ => exact hc.elim
  | _ =>
    unfold Frame.resume
    repeat' split
    all_goals trivial

theorem State.setStack_stack_self (s : State T τ) (t : T) (l : List (Frame τ)) :
    (s.setStack t l).stack t = l :=
  Function.update_self _ _ _

theorem State.setStack_stack_of_ne (s : State T τ) (l : List (Frame τ)) (hu : u ≠ t) :
    (s.setStack t l).stack u = s.stack u :=
  Function.update_of_ne hu _ _

/-- What holds of the calls of a thread holds after an operation if it holds of the place
where the operation goes on, of the call that it makes and of the call that it returns
to. -/
theorem forall_mem_stack {P : Frame τ → Prop} (hst : ∀ g ∈ f :: rest, P g)
    (hplace : ∀ f', e.place = some f' → P f') (hcallee : ∀ g, e.callee = some g → P g)
    (hret : ∀ v c l, e = .ret v → rest = c :: l → P (c.resume v)) :
    ∀ g ∈ e.stack f rest, P g := by
  intro g hg
  obtain ⟨f', hf', heq⟩ | ⟨v, rfl, heq⟩ | ⟨rfl, heq⟩ := e.stack_cases f rest
  · rw [heq] at hg
    rcases List.mem_append.mp hg with hg | hg
    · exact hcallee g (Option.mem_toList.mp hg)
    · rcases List.mem_cons.mp hg with rfl | hg
      · exact hplace g hf'
      · exact hst g (List.mem_cons_of_mem f hg)
  · rw [heq] at hg
    cases rest with
    | nil => cases hg
    | cons c l =>
      rcases List.mem_cons.mp hg with rfl | hg
      · exact hret v c l rfl rfl
      · exact hst g (List.mem_cons_of_mem f (List.mem_cons_of_mem c hg))
  · exact hst g (heq ▸ hg)

/-- The same for the calls of all threads, when the property of a call depends on the
state and the operations of others keep it. -/
theorem forall_frames_apply {P Q : T → Frame τ → Prop} (hst : s.stack t = f :: rest)
    (h : ∀ u, ∀ g ∈ s.stack u, P u g) (hmono : ∀ u g, P u g → Q u g)
    (hplace : ∀ f', e.place = some f' → Q t f') (hcallee : ∀ g, e.callee = some g → Q t g)
    (hret : ∀ v c l, e = .ret v → rest = c :: l → Q t (c.resume v)) :
    ∀ u, ∀ g ∈ (apply s t rest e).stack u, Q u g := by
  intro u g hg
  by_cases hu : u = t
  · subst hu
    rw [stack_apply hst] at hg
    have hold : ∀ g ∈ f :: rest, Q u g := fun g hg => hmono u g (h u g (hst ▸ hg))
    exact forall_mem_stack hold hplace hcallee hret g hg
  · rw [stack_apply_ne hu] at hg
    exact hmono u g (h u g hg)

/-- The same when a thread begins a call. -/
theorem forall_frames_call {P : T → Frame τ → Prop} (h : ∀ u, ∀ g ∈ s.stack u, P u g)
    (hf : P t f) : ∀ u, ∀ g ∈ (s.setStack t [f]).stack u, P u g := by
  intro u g hg
  by_cases hu : u = t
  · subst hu
    rw [State.setStack_stack_self, List.mem_singleton] at hg
    exact hg ▸ hf
  · rw [State.setStack_stack_of_ne _ _ hu] at hg
    exact h u g hg

/-- The locals of every call of `nsync_wait_n` are in order. -/
def LocalsOk (s : State T τ) : Prop := ∀ t, ∀ f ∈ s.stack t, f.LocalsOk

theorem place_of_map {P : Type} {k : P → Frame τ} {x : Option (Eff τ P)}
    (h : x.map (Eff.map k) = some e) (hf : e.place = some f') : ∃ q, f' = k q := by
  obtain ⟨e', -, rfl⟩ := Option.map_eq_some_iff.mp h
  rw [Eff.place_map] at hf
  obtain ⟨q, -, rfl⟩ := Option.map_eq_some_iff.mp hf
  exact ⟨q, rfl⟩

theorem place_localsOk (h : action s t ch f = some e) (hf : f.LocalsOk)
    (hf' : e.place = some f') : f'.LocalsOk := by
  cases f with
  | waitN w p =>
    obtain ⟨e, he, rfl⟩ := Option.map_eq_some_iff.mp h
    rw [Eff.place_map] at hf'
    obtain ⟨q, hq, rfl⟩ := Option.map_eq_some_iff.mp hf'
    exact waitN_localsOk he hq hf
  | _ =>
    obtain ⟨q, rfl⟩ := place_of_map h hf'
    trivial

/-- Only clients call the functions of the interface. -/
theorem Calls.ne_client {k : Fn τ} (h : f.Calls k) : k ≠ .client := by
  rintro rfl
  rcases Calls.cases h with ⟨n, parent, child, next, -, hk⟩ | ⟨n, parent, -, hk⟩ | ⟨-, -, -⟩
  · cases hk
  · cases hk
  · cases f with
    | waitN w p =>
      cases p <;> simp only [Frame.Calls] at h
      all_goals
        obtain ⟨v, -, hv⟩ := h
        cases v <;> exact hv
    | semWait d cancel p => cases cancel <;> cases p <;> exact h
    | notifyChild n parent p => cases p <;> exact h
    | notify n p => cases p <;> exact h
    | deadline n a p => cases p <;> exact h
    | isNotified n p => cases p <;> exact h
    | noteNotify n p => cases p <;> exact h
    | noteNew parent d p => cases p <;> exact h
    | noteDequeue n nw a p => cases p <;> exact h
    | _ => exact h

/-- What every function that is called by another one keeps to holds of the call that an
operation makes. -/
theorem Fits.callee_ne_client {now : τ} (h : Fits now f e) (hg : e.callee = some g) :
    g.fn ≠ .client := by
  cases e with
  | call f' g' =>
    cases hg
    exact Calls.ne_client (h.callee f' g rfl).1
  | _ => cases hg

theorem Call.localsOk (c : Call τ) : c.frame.LocalsOk := by
  cases c with
  | waitN mu d ws => exact ⟨rfl, rfl, rfl, rfl, rfl, rfl, Nat.zero_le _⟩
  | _ => trivial

theorem step_localsOk {i : T × Act τ} (hs : step i s = some s') (hok : StacksOk s)
    (hl : LocalsOk s) : LocalsOk s' := by
  obtain ⟨-, ⟨c, -, -, rfl⟩ | ⟨ch, f, rest, e, -, hst, he, rfl⟩ | ⟨-, rfl⟩ | ⟨x, -, -, rfl⟩⟩ :=
    step_cases hs
  · exact forall_frames_call hl c.localsOk
  · have hf : f ∈ s.stack i.1 := hst ▸ List.mem_cons_self
    refine forall_frames_apply hst hl (fun _ _ hg => hg) ?_ ?_ ?_
    · intro f' hf'
      exact place_localsOk he (hl i.1 f hf) hf'
    · intro g hg
      have hne := (action_fits he (hok.past i.1 f hf)).callee_ne_client hg
      cases g with
      | waitN w p => exact absurd rfl hne
      | _ => trivial
    · rintro v c l rfl rfl
      have hcalls : c.Calls f.fn := (hst ▸ hok.stack i.1 : StackOk (f :: c :: l)).1
      have hc : c ∈ s.stack i.1 := hst ▸ List.mem_cons_of_mem f List.mem_cons_self
      exact resume_localsOk (hl i.1 c hc) hcalls v
  · exact hl
  · exact hl

end Nsync.Wait
