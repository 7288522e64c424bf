import Nsync.Wait.Truth

/-!
# The index that `nsync_wait_n` returns

What the result of `nsync_wait_n` says about the objects, the deadline and the records of
the call.
-/

set_option linter.unusedSectionVars false

namespace Nsync.Wait

open Nsync.Lib

variable {T τ : Type} [DecidableEq T] [LinearOrder τ] [OrderTop τ] [Zero τ] {s s' : State T τ}
  {t u : T} {w : WaitN τ} {a : Waitable} {rest : List (Frame τ)}

/-- What the result of `nsync_wait_n` says.  An entry of the log says whether the record
was taken for queued, whether it was on the list and whether the object was ready when
the critical section of `dequeue` began. -/
structure WaitN.Truthful (s : State T τ) (w : WaitN τ) : Prop where
  index : w.ready ≤ w.waitable.length
  ready : ∀ a, w.waitable[w.ready]? = some a → s.Ready a
  before : w.queueing = true → ∀ j < w.ready, w.log[j]? = some ⟨true, true, false⟩
  deadline : w.ready = w.waitable.length → w.absDeadline ≤ s.now
  unlisted : w.queueing = true → ∀ j < w.waitable.length, ∀ a, w.nw + j ∉ s.waiters a
  calls : w.muCalls = [] ∨ w.muCalls = [.unlock, .lock]

theorem firstReady_cases (log : List Dequeued) (n : ℕ) :
    (firstReady log n = n ∧ ∀ d ∈ log, d.wasQueued = true) ∨
      (firstReady log n < log.length ∧
        (∃ d, log[firstReady log n]? = some d ∧ d.wasQueued = false) ∧
        ∀ j < firstReady log n, ∀ d, log[j]? = some d → d.wasQueued = true) := by
  unfold firstReady
  cases hlog : log.findIdx? fun d => !d.wasQueued with
  | none =>
    refine Or.inl ⟨rfl, fun d hd => ?_⟩
    simpa using List.findIdx?_eq_none_iff.mp hlog d hd
  | some k =>
    obtain ⟨hk, hq, hbefore⟩ := List.findIdx?_eq_some_iff_getElem.mp hlog
    refine Or.inr ⟨hk, ⟨log[k], List.getElem?_eq_getElem hk, by simpa using hq⟩, ?_⟩
    intro j hj d hd
    obtain ⟨hlt, rfl⟩ := List.getElem?_eq_some_iff.mp hd
    simpa using hbefore j hj

theorem step_now {i : T × Act τ} (hs : step i s = some s') : s.now ≤ s'.now := by
  obtain ⟨-, ⟨c, -, -, rfl⟩ | ⟨ch, f, rest, e, -, -, -, rfl⟩ | ⟨-, rfl⟩ | ⟨x, -, hx, rfl⟩⟩ :=
    step_cases hs
  · exact le_rfl
  · exact now_apply.ge
  · exact le_rfl
  · exact hx

theorem reach_now {P : T × Act τ → State T τ → Prop} {s₀ : State T τ} (h : Reach step P s₀ s) :
    s₀.now ≤ s.now :=
  h.invariant (I := fun a => s₀.now ≤ a.now) le_rfl fun _ _ _ _ ha _ hs => ha.trans (step_now hs)

/-- The records of a call that returns are on no list. -/
theorem Safe.unlisted (h : Safe s) (hst : s.stack t = .waitN w .result :: rest) {nw : ℕ}
    (hnw : nw ∈ (Frame.waitN w .result).owned) (a : Waitable) : nw ∉ s.waiters a := by
  intro hm
  obtain ⟨u, hu⟩ := h.good.listed nw a hm
  have hmem : nw ∈ recordsBy (s.stack u) :=
    List.mem_append_right _ (List.mem_map.mpr ⟨(nw, a), hu, rfl⟩)
  have hsem := (h.records.owner u nw hmem).2
  rw [(h.records.owned t _ (hst ▸ List.mem_cons_self) nw hnw).2] at hsem
  cases hsem
  -- The thread is in no other call, and this one has left all objects.
  have hnil : rest = [] := (hst ▸ h.locks.stack.stack t : StackOk (_ :: rest)).client rfl
  have hj : (nw, a) ∈ joinedBy (s.stack t) := hu
  rw [hst, hnil] at hj
  exact absurd hj List.not_mem_nil

/-- What the log says when the call has dequeued all its records. -/
theorem WaitN.Dequeueing.truth (hd : w.Dequeueing w.i) (hc : w.Cause s w.i) (hlog : w.LogOk s)
    (hpast : ∀ b, w.timedOut = some b → b ≤ s.now) :
    w.ready ≤ w.waitable.length ∧ (∀ a, w.waitable[w.ready]? = some a → s.Ready a) ∧
      (∀ j < w.ready, w.log[j]? = some ⟨true, true, false⟩) ∧
      (w.ready = w.waitable.length → w.absDeadline ≤ s.now) := by
  have hlen : w.log.length ≤ w.waitable.length := hd.log ▸ hd.i
  -- An object that was still enqueued was on the list and not ready.
  have hstill : ∀ (j : ℕ) d, w.log[j]? = some d → d.wasQueued = true → d = ⟨true, true, false⟩ := by
    intro j d hj hq
    have hjl : j < w.waitable.length := (List.getElem?_eq_some_iff.mp hj).1.trans_le hlen
    obtain ⟨-, hon, hr⟩ := hlog j d _ hj (List.getElem?_eq_getElem hjl)
    obtain ⟨q, o, r⟩ := d
    simp only at hq hon hr
    subst hq
    rw [hon, hr]
    rfl
  rcases firstReady_cases w.log w.waitable.length with ⟨hr, hall⟩ | ⟨hlt, ⟨d, hget, hq⟩, hbefore⟩
  · rw [← hd.ready] at hr
    have hend : w.i = w.waitable.length ∧ ∃ b, w.timedOut = some b ∧ w.absDeadline ≤ b := by
      rcases hc with ⟨d, hmem, hq⟩ | ⟨k, a, hik, hki, -⟩ | hend
      · rw [hall d hmem] at hq
        cases hq
      · omega
      · exact hend
    obtain ⟨hi, b, hb, hle⟩ := hend
    refine ⟨hr.le, fun a ha => ?_, fun j hj => ?_, fun _ => hle.trans (hpast b hb)⟩
    · have := (List.getElem?_eq_some_iff.mp ha).1
      omega
    · have hjlog : j < w.log.length := by
        rw [hd.log, hi, ← hr]
        exact hj
      have hget := List.getElem?_eq_getElem hjlog
      rw [hget, hstill j _ hget (hall _ (List.getElem_mem hjlog))]
  · rw [← hd.ready] at hlt hget hbefore
    have hrw : w.ready < w.waitable.length := hlt.trans_le hlen
    refine ⟨hrw.le, fun a ha => (hlog w.ready d a hget ha).ready hq, fun j hj => ?_,
      fun heq => absurd heq hrw.ne⟩
    have hget' := List.getElem?_eq_getElem (hj.trans hlt)
    rw [hget', hstill j _ hget' (hbefore j hj _ hget')]

/-- What `nsync_wait_n` is about to return is true, whatever the other threads do. -/
theorem waitN_returns_truthfully {value : ℕ → Word} {sem : T → ℕ} {now : τ} (htop : (0 : τ) < ⊤)
    (hnow : 0 ≤ now) (h : Reach step Legal (initial value sem now) s)
    (hst : s.stack t = .waitN w .result :: rest) : w.Truthful s := by
  have hsafe := reach_safe h
  have hinf := reach_informed h htop
  have hf : .waitN w .result ∈ s.stack t := hst ▸ List.mem_cons_self
  have hsound : w.Sound s .result := hinf.sound t _ hf
  have hunlisted : w.queueing = true → ∀ j < w.waitable.length, ∀ a, w.nw + j ∉ s.waiters a := by
    intro hq j hj a
    refine hsafe.unlisted hst ?_ a
    simp [Frame.owned, hq, List.mem_range'_1, hj]
  rcases hsafe.locals t _ hf with ⟨hu, hlate⟩ | ⟨hd, hcalls⟩
  · have hq := hu.queueing
    simp only [WaitN.Sound, hq] at hsound
    refine ⟨hu.ready, hsound, fun hq' => ?_, fun hr => ?_, hunlisted, Or.inl hu.muCalls⟩
    · rw [hq] at hq'
      cases hq'
    · exact (hlate hr).trans (hnow.trans (reach_now h))
  · simp only [WaitN.Sound, hd.queueing, if_true] at hsound
    obtain ⟨hle, hready, hbefore, hdeadline⟩ :=
      hd.truth hsound.1 hsound.2 (hsafe.locks.stack.past t _ hf)
    refine ⟨hle, hready, fun _ => hbefore, hdeadline, hunlisted, ?_⟩
    rw [hcalls]
    cases w.unlocked with
    | true => exact Or.inr rfl
    | false => exact Or.inl rfl

/-! ## A run -/

/-- A check that a step of one of two threads is legal, for runs that free no note. -/
def legalCheck (i : Bool × Act (WithTop ℕ)) (s : State Bool (WithTop ℕ)) : Bool :=
  (match i.2 with
    | .call (.noteFree _) => false
    | .call c => c.notes.all fun n => decide (n < s.notes) && !(s.note n).freed &&
        [true, false].all fun u => (s.stack u).all fun f =>
          f.creating != some n && match f with
            | .noteFree _ _ => false
            | _ => true
    | _ => true) &&
  match i.2, s.stack i.1 with
  | .step _, .counterAdd c d (.cas old) :: _ =>
      (s.counter c).value != old || assertsHold d (old + d) (s.counter c).waited
  | _, _ => true

theorem legal_of_check (i : Bool × Act (WithTop ℕ)) (s : State Bool (WithTop ℕ))
    (h : legalCheck i s = true) : Legal i s := by
  obtain ⟨hproper, hcalm⟩ := Bool.and_eq_true_iff.mp h
  refine ⟨?_, ?_⟩
  · unfold Proper
    cases hact : i.2 with
    | call c =>
      rw [hact] at hproper
      have hfree : ∀ n, c ≠ .noteFree n := by
        rintro n rfl
        cases hproper
      refine ⟨fun n hn => ?_, fun n hc => absurd hc (hfree n)⟩
      have hall : (decide (n < s.notes) && !(s.note n).freed &&
          [true, false].all fun u => (s.stack u).all fun f =>
            f.creating != some n && match f with
              | .noteFree _ _ => false
              | _ => true) = true := by
        cases c <;> first | exact absurd rfl (hfree _) | exact List.all_eq_true.mp hproper n hn
      simp only [Bool.and_eq_true, decide_eq_true_eq, Bool.not_eq_true', List.all_eq_true] at hall
      have hframes : ∀ u, ∀ f ∈ s.stack u, (f.creating != some n) = true ∧
          (match f with
            | .noteFree _ _ => false
            | _ => true) = true :=
        fun u => hall.2 u (by cases u <;> simp)
      refine ⟨hall.1.1, fun u f hf => ?_, hall.1.2, fun u p hp => ?_⟩
      · simpa using (hframes u f hf).1
      · cases (hframes u _ hp).2
    | _ => trivial
  · unfold Calm
    split
    · next heq =>
      intro hv
      simp_all
    · trivial

/-- One thread waits for a counter that stays at one and a note, and the other one
notifies the note. -/
def notifiedRun : List (Bool × Act (WithTop ℕ)) :=
  (true, .call (.noteNew none ⊤)) :: List.replicate 11 (true, .step .run) ++
    (false, .call (.waitN true 5 [.counter 0, .note 0])) ::
      List.replicate 37 (false, .step .run) ++
    (true, .call (.noteNotify 0)) :: List.replicate 26 (true, .step .run) ++
    List.replicate 24 (false, .step .run)

/-- The call that queued returns, naming the note. -/
def returnsNote (s : State Bool (WithTop ℕ)) : Bool :=
  match s.stack false with
  | [.waitN w .result] => w.queueing && w.ready == 1
  | _ => false

theorem waitN_returns_truthfully_notified :
    ∃ (s : State Bool (WithTop ℕ)) (w : WaitN (WithTop ℕ)),
      Reach step Legal (initial (fun _ => 1#32) (fun _ => 0) 0) s ∧
      s.stack false = [.waitN w .result] ∧ w.queueing = true ∧ w.ready = 1 ∧ w.Truthful s := by
  have hrun : ((exec step legalCheck notifiedRun
      (initial (fun _ => 1#32) (fun _ : Bool => 0) (0 : WithTop ℕ))).map returnsNote) =
        some true := by
    decide +kernel
  obtain ⟨s, hs, hf⟩ := Reach.exists_of_exec legal_of_check hrun
  unfold returnsNote at hf
  split at hf
  · next w hst =>
    rw [Bool.and_eq_true, beq_iff_eq] at hf
    exact ⟨s, w, hs, hst, hf.1, hf.2,
      waitN_returns_truthfully (by decide) le_rfl hs hst⟩
  · cases hf

end Nsync.Wait
