import Nsync.Wait.Discipline

/-!
# What the calls in progress have found out

The values that calls carry around were read from objects that other threads go on to
change.  What they say stays true: objects do not stop being ready, the expiry time of a
note is fixed once clients know the note, and the clock does not go back.
-/

set_option linter.unusedSectionVars false

namespace Nsync.Wait

open Nsync.Lib

variable {T τ : Type}

section

variable [LinearOrder τ] [OrderTop τ] [Zero τ]

/-- The expiry time of a note. -/
def Note.expiry (x : Note T τ) : τ := if x.expiryTimeValid then x.expiryTime else ⊤

theorem Note.notifiedTime_eq (x : Note T τ) :
    x.notifiedTime = if x.notified then 0 else x.expiry := rfl

/-- What a reading of `NOTIFIED_TIME` says. -/
def Answer (s : State T τ) (n : ℕ) (x : τ) : Prop :=
  (x ≤ 0 ∧ s.Ready (.note n)) ∨ (0 < x ∧ x = (s.note n).expiry)

/-- What a call of `dequeue` says. -/
structure DequeueOk (s : State T τ) (a : Waitable) (d : Dequeued) : Prop where
  ready : d.wasQueued = false → s.Ready a
  onList : d.onList = d.wasQueued
  wasReady : d.ready = !d.wasQueued

/-- How the wait on the semaphore ended, and what it is taken for. -/
inductive Ended (s : State T τ) (d : τ) (c : ℕ) : SemOutcome → SemOutcome → Prop where
  | ok : Ended s d c .ok .ok
  | timedOut (hd : d ≤ s.now) (hc : d < (s.note c).expiry) : Ended s d c .timedOut .timedOut
  | cancelled (hc : (s.note c).expiry ≤ d) (hr : s.Ready (.note c)) : Ended s d c .cancelled .timedOut

/-- What is known at the places of `nsync_sem_wait_with_cancel_` with the note `c`. -/
def SemPc.Sound (s : State T τ) (d : τ) (c : ℕ) : SemPc τ → Prop
  | .unlockSleep _ x nearer | .sleep _ x nearer =>
      (nearer = true ∧ x = d ∧ d < (s.note c).expiry) ∨
        (nearer = false ∧ x = (s.note c).expiry ∧ (s.note c).expiry ≤ d)
  | .notifyCalled _ => (s.note c).expiry ≤ d
  | .relock _ o x | .unlink _ o x => Ended s d c o x
  | .unlock _ o x | .result o x =>
      (x = none ∧ o = .cancelled ∧ s.Ready (.note c)) ∨ ∃ y, x = some y ∧ Ended s d c o y
  -- The wait without a note is for calls without one.
  | .sleepOnly => False
  | _ => True

namespace WaitN

/-- The nearest time at which the call has something to do. -/
def Bound (s : State T τ) (w : WaitN τ) (m : τ) : Prop :=
  (m ≤ 0 → ∃ a ∈ w.waitable, s.Ready a) ∧
    (0 < m → m = w.absDeadline ∨ ∃ n, .note n ∈ w.waitable ∧ (s.note n).expiry = m)

/-- Why the call stops waiting: a record that was dequeued had not been queued, an object
from the one with the index `j` on is ready or a note that has expired, or the deadline
has passed. -/
def Cause (s : State T τ) (w : WaitN τ) (j : ℕ) : Prop :=
  (∃ d ∈ w.log, d.wasQueued = false) ∨
  (∃ k a, j ≤ k ∧ k < w.i ∧ w.waitable[k]? = some a ∧ (s.Ready a ∨
    ∃ n b, a = .note n ∧ w.timedOut = some b ∧ (s.note n).expiry ≤ b)) ∨
  (w.i = w.waitable.length ∧ ∃ b, w.timedOut = some b ∧ w.absDeadline ≤ b)

/-- What the calls of `dequeue` have found. -/
def LogOk (s : State T τ) (w : WaitN τ) : Prop :=
  ∀ (k : ℕ) d a, w.log[k]? = some d → w.waitable[k]? = some a → DequeueOk s a d

/-- What is known at the places of `nsync_wait_n`. -/
def Sound (s : State T τ) (w : WaitN τ) : WaitPc τ → Prop
  | .scan _ m | .scanCalled _ m => w.Bound s m
  | .sleep m => 0 < m ∧ w.Bound s m
  | .dequeue j => w.Cause s j ∧ w.LogOk s
  | .dequeueCalled _ => w.LogOk s
  | .lockMu => w.Cause s w.i ∧ w.LogOk s
  | .result => if w.queueing then w.Cause s w.i ∧ w.LogOk s
      else ∀ a, w.waitable[w.ready]? = some a → s.Ready a
  | _ => True

end WaitN

/-- What a call knows. -/
def Frame.Sound (s : State T τ) : Frame τ → Prop
  | .notifyChild n _ p =>
      match p with
      | .test | .store => True
      | _ => s.Ready (.note n)
  | .notify n p =>
      match p with
      | .unlockParent _ | .decr | .unlock | .done => s.Ready (.note n)
      | _ => True
  | .deadline n a p =>
      match p with
      | .unlock x | .check x => Answer s n x
      | .result x => Answer s n x ∧ (0 < x → a < x)
      | _ => True
  | .isNotified n p =>
      match p with
      | .result b => b = true → s.Ready (.note n)
      | _ => True
  | .noteNotify n p =>
      match p with
      | .done => s.Ready (.note n)
      | _ => True
  | .counterReady c p =>
      match p with
      | .result r => (r = 0 ∧ s.Ready (.counter c)) ∨ r = ⊤
      | _ => True
  | .noteEnqueue n _ p =>
      match p with
      | .unlock b | .result b => b = false → s.Ready (.note n)
      | _ => True
  | .counterEnqueue c _ p =>
      match p with
      | .unlock b | .result b => b = false → s.Ready (.counter c)
      | _ => True
  | .noteDequeue n _ a p =>
      match p with
      | .lock | .unlink => s.Ready (.note n) ∨ a < (s.note n).expiry
      | .unlock d | .result d => DequeueOk s (.note n) d
      | _ => True
  | .counterDequeue c _ p =>
      match p with
      | .unlock d | .result d => DequeueOk s (.counter c) d
      | _ => True
  | .semWait d cancel p =>
      match cancel with
      | some c => p.Sound s d c
      | none =>
          match p with
          | .result o x => (o = .ok ∧ x = some .ok) ∨ (o = .timedOut ∧ x = some .timedOut ∧ d ≤ s.now)
          | _ => True
  | .waitN w p => w.Sound s p
  | _ => True

/-! ## What is known stays true -/

/-- The state `s'` comes after `s`, as seen by the call `g`. -/
structure Later (s s' : State T τ) (g : Frame τ) : Prop where
  note : ∀ n < s.notes, s.Ready (.note n) → s'.Ready (.note n)
  expiry : ∀ n, n ∈ g.asks ∨ n ∈ g.awaits → (s'.note n).expiry = (s.note n).expiry
  counter : ∀ c, (s.counter c).waited = true → s.Ready (.counter c) → s'.Ready (.counter c)
  now : s.now ≤ s'.now

variable {s s' : State T τ} {f g c : Frame τ} {w : WaitN τ} {a : Waitable} {n : ℕ}

theorem DequeueOk.mono {d : Dequeued} (h : DequeueOk s a d) (ha : s.Ready a → s'.Ready a) :
    DequeueOk s' a d :=
  ⟨fun hd => ha (h.ready hd), h.onList, h.wasReady⟩

theorem Answer.mono {x : τ} (h : Answer s n x)
    (hr : s.Ready (.note n) → s'.Ready (.note n)) (hx : (s'.note n).expiry = (s.note n).expiry) :
    Answer s' n x := by
  rcases h with ⟨hle, hn⟩ | ⟨hlt, heq⟩
  · exact Or.inl ⟨hle, hr hn⟩
  · exact Or.inr ⟨hlt, heq.trans hx.symm⟩

theorem Ended.mono {d : τ} {k : ℕ} {o x : SemOutcome} (h : Ended s d k o x) (hn : s.now ≤ s'.now)
    (hr : s.Ready (.note k) → s'.Ready (.note k)) (hx : (s'.note k).expiry = (s.note k).expiry) :
    Ended s' d k o x := by
  cases h with
  | ok => exact .ok
  | timedOut hd hc => exact .timedOut (hd.trans hn) (hx ▸ hc)
  | cancelled hc hk => exact .cancelled (hx ▸ hc) (hr hk)

theorem SemPc.Sound.mono {d : τ} {k : ℕ} {p : SemPc τ} (h : p.Sound s d k) (hn : s.now ≤ s'.now)
    (hr : s.Ready (.note k) → s'.Ready (.note k)) (hx : (s'.note k).expiry = (s.note k).expiry) :
    p.Sound s' d k := by
  have hfinal : ∀ {o : SemOutcome} {x : Option SemOutcome},
      ((x = none ∧ o = .cancelled ∧ s.Ready (.note k)) ∨ ∃ y, x = some y ∧ Ended s d k o y) →
      ((x = none ∧ o = .cancelled ∧ s'.Ready (.note k)) ∨ ∃ y, x = some y ∧ Ended s' d k o y) := by
    rintro o x (⟨hnone, ho, hk⟩ | ⟨y, hy, he⟩)
    · exact Or.inl ⟨hnone, ho, hr hk⟩
    · exact Or.inr ⟨y, hy, he.mono hn hr hx⟩
  cases p with
  | unlockSleep nw x nearer =>
    simp only [SemPc.Sound, hx]
    exact h
  | sleep nw x nearer =>
    simp only [SemPc.Sound, hx]
    exact h
  | notifyCalled nw =>
    simp only [SemPc.Sound, hx]
    exact h
  | relock nw o x => exact Ended.mono h hn hr hx
  | unlink nw o x => exact Ended.mono h hn hr hx
  | unlock nw o x => exact hfinal h
  | result o x => exact hfinal h
  | _ => exact h

theorem WaitN.Bound.mono {m : τ} (h : w.Bound s m) (hr : ∀ a ∈ w.waitable, s.Ready a → s'.Ready a)
    (hx : ∀ n, .note n ∈ w.waitable → (s'.note n).expiry = (s.note n).expiry) : w.Bound s' m := by
  refine ⟨fun hm => ?_, fun hm => ?_⟩
  · obtain ⟨a, ha, hready⟩ := h.1 hm
    exact ⟨a, ha, hr a ha hready⟩
  · rcases h.2 hm with hd | ⟨n, hn, heq⟩
    · exact Or.inl hd
    · exact Or.inr ⟨n, hn, (hx n hn).trans heq⟩

theorem WaitN.Cause.mono {j : ℕ} (h : w.Cause s j) (hr : ∀ a ∈ w.waitable, s.Ready a → s'.Ready a)
    (hx : ∀ n, .note n ∈ w.waitable → (s'.note n).expiry = (s.note n).expiry) : w.Cause s' j := by
  rcases h with hd | ⟨k, a, hj, hi, hk, hka⟩ | hd
  · exact Or.inl hd
  · have hmem := List.mem_of_getElem? hk
    refine Or.inr (Or.inl ⟨k, a, hj, hi, hk, ?_⟩)
    rcases hka with hready | ⟨n, b, rfl, hb, hle⟩
    · exact Or.inl (hr a hmem hready)
    · exact Or.inr ⟨n, b, rfl, hb, (hx n hmem).trans_le hle⟩
  · exact Or.inr (Or.inr hd)

theorem WaitN.LogOk.mono (h : w.LogOk s) (hr : ∀ a ∈ w.waitable, s.Ready a → s'.Ready a) :
    w.LogOk s' :=
  fun k d a hd ha => (h k d a hd ha).mono (hr a (List.mem_of_getElem? ha))

/-- The objects of a call of `nsync_wait_n` stay ready. -/
theorem Later.ready {p : WaitPc τ} (h : Later s s' (.waitN w p))
    (hids : ∀ n ∈ (Frame.waitN w p).ids, n < s.notes)
    (hw : ∀ c, .counter c ∈ w.waitable → (s.counter c).waited = true) :
    ∀ a ∈ w.waitable, s.Ready a → s'.Ready a := by
  intro a ha hr
  cases a with
  | note n => exact h.note n (hids n (List.mem_filterMap.mpr ⟨_, ha, rfl⟩)) hr
  | counter c => exact h.counter c (hw c ha) hr

theorem Later.expiry_waitN {p : WaitPc τ} (h : Later s s' (.waitN w p)) :
    ∀ n, .note n ∈ w.waitable → (s'.note n).expiry = (s.note n).expiry :=
  fun n hn => h.expiry n (Or.inr (List.mem_filterMap.mpr ⟨_, hn, rfl⟩))

theorem WaitN.Sound.mono {p : WaitPc τ} (h : w.Sound s p) (hlater : Later s s' (.waitN w p))
    (hids : ∀ n ∈ (Frame.waitN w p).ids, n < s.notes) (hw : (Frame.waitN w p).Waited s) :
    w.Sound s' p := by
  have hx := hlater.expiry_waitN
  cases p with
  | scan j m => exact WaitN.Bound.mono h (hlater.ready hids hw) hx
  | scanCalled j m => exact WaitN.Bound.mono h (hlater.ready hids hw) hx
  | sleep m => exact ⟨h.1, h.2.mono (hlater.ready hids hw) hx⟩
  | dequeue j => exact ⟨h.1.mono (hlater.ready hids hw) hx, h.2.mono (hlater.ready hids hw)⟩
  | dequeueCalled j => exact WaitN.LogOk.mono h (hlater.ready hids hw)
  | lockMu => exact ⟨h.1.mono (hlater.ready hids hw) hx, h.2.mono (hlater.ready hids hw)⟩
  | result =>
    cases hq : w.queueing with
    | true =>
      simp only [WaitN.Sound, hq, if_true] at h ⊢
      exact ⟨h.1.mono (hlater.ready hids (hw.1 hq)) hx, h.2.mono (hlater.ready hids (hw.1 hq))⟩
    | false =>
      simp only [WaitN.Sound, hq] at h ⊢
      intro a ha
      have hr := h a ha
      cases a with
      | note n => exact hlater.note n (hids n (mem_ids_of_waitable ha)) hr
      | counter c => exact hlater.counter c (hw.2 w.ready le_rfl c ha) hr
  | _ => trivial

theorem Frame.Sound.mono (h : g.Sound s) (hlater : Later s s' g)
    (hids : ∀ n ∈ g.ids, n < s.notes) (hw : g.Waited s) : g.Sound s' := by
  cases g with
  | notifyChild n parent p =>
    have hn := hlater.note n (hids n List.mem_cons_self)
    cases p <;> first | trivial | exact hn h
  | notify n p =>
    have hn := hlater.note n (hids n List.mem_cons_self)
    cases p <;> first | trivial | exact hn h
  | deadline n b p =>
    have hn := hlater.note n (hids n List.mem_cons_self)
    have hx := hlater.expiry n (Or.inl List.mem_cons_self)
    cases p with
    | unlock x => exact Answer.mono h hn hx
    | check x => exact Answer.mono h hn hx
    | result x => exact ⟨h.1.mono hn hx, h.2⟩
    | _ => trivial
  | isNotified n p =>
    have hn := hlater.note n (hids n List.mem_cons_self)
    cases p with
    | result b => exact fun hb => hn (h hb)
    | _ => trivial
  | noteNotify n p =>
    have hn := hlater.note n (hids n List.mem_cons_self)
    cases p <;> first | trivial | exact hn h
  | counterReady k p =>
    cases p with
    | result r => exact h.imp (fun hr => ⟨hr.1, hlater.counter k hw hr.2⟩) id
    | _ => trivial
  | noteEnqueue n nw p =>
    have hn := hlater.note n (hids n List.mem_cons_self)
    cases p with
    | unlock b => exact fun hb => hn (h hb)
    | result b => exact fun hb => hn (h hb)
    | _ => trivial
  | counterEnqueue k nw p =>
    cases p with
    | unlock b => exact fun hb => hlater.counter k hw (h hb)
    | result b => exact fun hb => hlater.counter k hw (h hb)
    | _ => trivial
  | noteDequeue n nw b p =>
    have hn := hlater.note n (hids n List.mem_cons_self)
    have hx := hlater.expiry n (Or.inr List.mem_cons_self)
    cases p with
    | lock => exact h.imp hn fun hlt => hx.symm ▸ hlt
    | unlink => exact h.imp hn fun hlt => hx.symm ▸ hlt
    | unlock d => exact DequeueOk.mono h hn
    | result d => exact DequeueOk.mono h hn
    | _ => trivial
  | counterDequeue k nw p =>
    cases p with
    | unlock d => exact DequeueOk.mono h (hlater.counter k hw)
    | result d => exact DequeueOk.mono h (hlater.counter k hw)
    | _ => trivial
  | semWait d cancel p =>
    cases cancel with
    | some k =>
      exact SemPc.Sound.mono h hlater.now (hlater.note k (hids k List.mem_cons_self))
        (hlater.expiry k (Or.inr List.mem_cons_self))
    | none =>
      cases p with
      | result o x => exact h.imp id fun hd => ⟨hd.1, hd.2.1, hd.2.2.trans hlater.now⟩
      | _ => trivial
  | waitN w p => exact WaitN.Sound.mono h hlater hids hw
  | _ => trivial

end

/-! ## Steps -/

section

variable [DecidableEq T] [LinearOrder τ] [OrderTop τ] [Zero τ] {s s' : State T τ} {t u : T}
  {ch : Choice} {f f' g c : Frame τ} {e : Eff τ (Frame τ)} {rest l : List (Frame τ)} {v : Val τ}
  {w : WaitN τ} {p : WaitPc τ} {n nw : ℕ} {a : Waitable}

theorem expiry_apply (hn : n < s.notes) (he : ∀ p x f', e ≠ .link n p x f') :
    ((apply s t rest e).note n).expiry = (s.note n).expiry := by
  unfold Note.expiry
  rw [expiryTimeValid_apply, expiryTime_apply]
  cases e with
  | malloc d f' =>
    simp only
    rw [if_neg hn.ne, if_neg hn.ne]
  | link m p x f' =>
    have hm : ¬ (n = m ∧ x < (s.note m).expiryTime) := by
      rintro ⟨rfl, -⟩
      exact he p x f' rfl
    simp only
    rw [if_neg hm]
  | _ => rfl

/-- A client call is the outermost one. -/
theorem StackOk.client (h : StackOk (f :: rest)) (hf : f.fn = .client) : rest = [] := by
  cases rest with
  | nil => rfl
  | cons c l => exact absurd hf (Calls.ne_client h.1)

theorem creating_client (h : f.creating = some n) : f.fn = .client := by
  cases f <;> first | rfl | cases h

/-- The expiry time of a note that a call asks about or waits for is fixed. -/
theorem Safe.expiry (h : Safe s) (hst : s.stack t = f :: rest) (he : action s t ch f = some e)
    (hg : g ∈ s.stack u) (hn : n ∈ g.asks ∨ n ∈ g.awaits) :
    ((apply s t rest e).note n).expiry = (s.note n).expiry := by
  have hf : f ∈ s.stack t := hst ▸ List.mem_cons_self
  have hid : n ∈ g.ids := hn.elim (fun h => asks_subset_ids g h) fun h => awaits_subset_ids g h
  refine expiry_apply (h.locks.ids.known u g hg n hid) ?_
  rintro p x f' rfl
  have hcr : f.creating = some n := action_allowed he
  rcases hn with hn | hn
  · by_cases hu : u = t
    · subst hu
      have hnil : rest = [] := (hst ▸ h.locks.stack.stack u : StackOk (f :: rest)).client
        (creating_client hcr)
      rw [hst, hnil, List.mem_singleton] at hg
      subst hg
      cases g <;> first | cases hcr | exact absurd hn List.not_mem_nil
    · exact (h.priv t f hf n hcr u hu g hg).1 hn
  · exact h.hidden t f hf n hcr u g hg hn

/-- The value of a counter that has been waited for stays zero. -/
theorem ready_counter (he : action s t ch f = some e)
    (hcalm : ∀ c d old, f = .counterAdd c d (.cas old) → (s.counter c).value = old →
      assertsHold d (old + d) (s.counter c).waited = true)
    (hw : (s.counter n).waited = true) (hr : s.Ready (.counter n)) :
    (apply s t rest e).Ready (.counter n) := by
  change ((apply s t rest e).counter n).value = 0#32
  rw [value_apply]
  cases e with
  | setValue k x f' =>
    obtain ⟨d, old, rfl, rfl⟩ : ∃ d old, f = .counterAdd k d (.cas old) ∧ x = old + d :=
      action_allowed he
    simp only
    by_cases hk : n = k
    · subst hk
      by_cases hold : (s.counter n).value = old
      · have hasserts := hcalm n d old rfl hold
        have hzero : old = 0#32 := hold.symm.trans hr
        rw [hzero, hw, assertsHold_zero] at hasserts
        cases hasserts
      · simp only [action, counterAdd, hold, if_false] at he
        cases he
    · rw [if_neg hk]
      exact hr
  | _ => exact hr

theorem Safe.later (h : Safe s) (hst : s.stack t = f :: rest) (he : action s t ch f = some e)
    (hcalm : ∀ c d old, f = .counterAdd c d (.cas old) → (s.counter c).value = old →
      assertsHold d (old + d) (s.counter c).waited = true) (hg : g ∈ s.stack u) :
    Later s (apply s t rest e) g :=
  ⟨fun _ hn hr => notifiedTime_apply_le hn hr, fun _ hn => h.expiry hst he hg hn,
    fun _ hw hr => ready_counter he hcalm hw hr, now_apply.ge⟩

end

end Nsync.Wait
