import Nsync.Wait.Answers

/-!
# What the calls know in reached states

In every reached state the calls in progress know what `Frame.Sound` says, and a call of
`nsync_wait_n` that dequeues its records has a reason for it.
-/

set_option linter.unusedSectionVars false

namespace Nsync.Wait

open Nsync.Lib

variable {T τ : Type}

/-- What a call of `dequeue` has found. -/
def Frame.dequeued : Frame τ → Option Dequeued
  | .noteDequeue _ _ _ (.unlock d) | .noteDequeue _ _ _ (.result d)
  | .counterDequeue _ _ (.unlock d) | .counterDequeue _ _ (.result d) => some d
  | _ => none

/-- The call is at the beginning of a function that another one has called. -/
inductive Frame.Entry : Frame τ → Prop where
  | notifyChild (n : ℕ) (parent : Option ℕ) : Entry (.notifyChild n parent .test)
  | notify (n : ℕ) : Entry (.notify n .lock)
  | deadline (n : ℕ) (since : τ) : Entry (.deadline n since .load)
  | isNotified (n : ℕ) : Entry (.isNotified n .call)
  | noteNotify (n : ℕ) : Entry (.noteNotify n .call)
  | counterReady (c : ℕ) : Entry (.counterReady c .store)
  | noteEnqueue (n nw : ℕ) : Entry (.noteEnqueue n nw .lock)
  | noteDequeue (n nw : ℕ) (since : τ) : Entry (.noteDequeue n nw since .call)
  | counterEnqueue (c nw : ℕ) : Entry (.counterEnqueue c nw .lock)
  | counterDequeue (c nw : ℕ) : Entry (.counterDequeue c nw .lock)

section

variable [LinearOrder τ] [OrderTop τ] [Zero τ]

/-- The reason for which the call `c` of `nsync_wait_n` has called `g` to dequeue a
record. -/
def Over (s : State T τ) (g c : Frame τ) : Prop :=
  ∀ w j, c = .waitN w (.dequeueCalled j) →
    match g.dequeued with
    | none => w.Cause s j
    | some d => d.wasQueued = false ∨ w.Cause s (j + 1)

def OverOk (s : State T τ) : List (Frame τ) → Prop
  | [] => True
  | [_] => True
  | g :: c :: l => Over s g c ∧ OverOk s (c :: l)

/-- What the call `g` knows in the state `s` it knows in `s'`. -/
structure Persists (s s' : State T τ) (g : Frame τ) : Prop where
  later : Later s s' g
  ids : ∀ n ∈ g.ids, n < s.notes
  waited : g.Waited s

/-- The facts about the calls in progress that every step keeps. -/
structure Informed (s : State T τ) : Prop where
  sound : ∀ t, ∀ f ∈ s.stack t, f.Sound s
  reason : ∀ t, OverOk s (s.stack t)

variable {s s' : State T τ} {f f' g c : Frame τ} {rest l : List (Frame τ)} {w : WaitN τ}

theorem Over.mono (h : Over s g c) (hc : ∀ w j, c = .waitN w (.dequeueCalled j) → Persists s s' c) :
    Over s' g c := by
  rintro w j rfl
  have hp := hc w j rfl
  have hw := h w j rfl
  have hready := hp.later.ready hp.ids hp.waited
  have hexpiry := hp.later.expiry_waitN
  cases hd : g.dequeued with
  | none =>
    rw [hd] at hw
    exact WaitN.Cause.mono hw hready hexpiry
  | some d =>
    rw [hd] at hw
    exact hw.imp id fun hcause => hcause.mono hready hexpiry

theorem OverOk.mono (h : OverOk s l)
    (hl : ∀ w p, .waitN w p ∈ l → Persists s s' (.waitN w p)) : OverOk s' l := by
  induction l with
  | nil => trivial
  | cons g l ih =>
    cases l with
    | nil => trivial
    | cons c l =>
      refine ⟨h.1.mono ?_, ih h.2 fun w p hw => hl w p (List.mem_cons_of_mem g hw)⟩
      rintro w j rfl
      exact hl w _ (List.mem_cons_of_mem g List.mem_cons_self)

theorem OverOk.tail (h : OverOk s (f :: rest)) : OverOk s rest := by
  cases rest with
  | nil => trivial
  | cons c l => exact h.2

theorem OverOk.replace (h : OverOk s (f :: rest))
    (hf : ∀ c l, rest = c :: l → Over s f c → Over s f' c) : OverOk s (f' :: rest) := by
  cases rest with
  | nil => trivial
  | cons c l => exact ⟨hf c l rfl h.1, h.2⟩

end

section

variable [DecidableEq T] [LinearOrder τ] [OrderTop τ] [Zero τ] {s s' : State T τ} {t u : T}
  {ch : Choice} {f f' g c : Frame τ} {e : Eff τ (Frame τ)} {rest l : List (Frame τ)} {v : Val τ}
  {w : WaitN τ} {p : WaitPc τ} {n nw : ℕ} {a : Waitable}

/-! ## Reasons to stop waiting -/

theorem resume_dequeued (f : Frame τ) (v : Val τ) : (f.resume v).dequeued = f.dequeued := by
  unfold Frame.resume
  repeat' split
  all_goals rfl

/-- An object that was still enqueued was not the reason. -/
theorem WaitN.Cause.succ {j : ℕ} (h : w.Cause s j) (ha : w.waitable[j]? = some a)
    (hr : ¬ s.Ready a)
    (hx : ∀ n b, a = .note n → w.timedOut = some b → b < (s.note n).expiry) :
    w.Cause s (j + 1) := by
  rcases h with h | ⟨k, a', hjk, hki, hk, hka⟩ | h
  · exact Or.inl h
  · rcases hjk.lt_or_eq with hlt | rfl
    · exact Or.inr (Or.inl ⟨k, a', hlt, hki, hk, hka⟩)
    · rw [ha] at hk
      cases hk
      rcases hka with hready | ⟨n, b, rfl, hb, hle⟩
      · exact absurd hready hr
      · exact absurd (hx n b rfl hb) (not_lt.mpr hle)
  · exact Or.inr (Or.inr h)

/-- A record is dequeued, and what is found leaves a reason. -/
theorem place_over (h : Safe s) (hst : s.stack t = f :: c :: l) (he : action s t ch f = some e)
    (hs : f.Sound s) (ho : Over s f c) (hf' : e.place = some f') : Over s f' c := by
  rintro w j rfl
  have hw := ho w j rfl
  obtain ⟨a, ha, hd⟩ : (Frame.waitN w (.dequeueCalled j)).Calls f.fn :=
    (hst ▸ h.locks.stack.stack t : StackOk (f :: _ :: l)).1
  cases f with
  | noteDequeue n nw b p =>
    cases a with
    | counter m => exact hd.elim
    | note m =>
      obtain ⟨rfl, -, hb⟩ := hd
      obtain ⟨e, he', rfl⟩ := Option.map_eq_some_iff.mp he
      cases p with
      | unlink =>
        simp only [noteDequeue] at he'
        split at he'
        · next hr =>
          cases he'
          cases hf'
          refine Or.inr (WaitN.Cause.succ hw ha (not_le.mpr hr) fun n' b' hn hb' => ?_)
          cases hn
          exact (hb b' hb').trans_lt (hs.resolve_left (not_le.mpr hr))
        · cases he'
          cases hf'
          exact Or.inl rfl
      | _ =>
        simp only [noteDequeue, lockNote] at he'
        (repeat' split at he') <;> cases he' <;> cases hf' <;> exact hw
  | counterDequeue n nw p =>
    cases a with
    | note m => exact hd.elim
    | counter m =>
      obtain ⟨rfl, -⟩ := hd
      obtain ⟨e, he', rfl⟩ := Option.map_eq_some_iff.mp he
      cases p with
      | unlink =>
        have hover : decide ((s.counter n).value ≠ 0#32) = false ∨ w.Cause s (j + 1) := by
          by_cases hz : (s.counter n).value = 0#32
          · exact Or.inl (by simp [hz])
          · refine Or.inr (WaitN.Cause.succ hw ha hz fun n' b' hn => ?_)
            cases hn
        simp only [counterDequeue] at he'
        split at he' <;> cases he' <;> cases hf' <;> exact hover
      | _ =>
        simp only [counterDequeue, lockCounterMu] at he'
        (repeat' split at he') <;> cases he' <;> cases hf' <;> exact hw
  | _ => cases a <;> exact hd.elim

/-- A call begins where its function begins. -/
theorem callee_entry (he : action s t ch f = some e) (hfits : Fits s.now f e)
    (hg : e.callee = some g) : g.Entry := by
  cases f with
  | waitN w p =>
    obtain ⟨e, he', rfl⟩ := Option.map_eq_some_iff.mp he
    rw [Eff.callee_map] at hg
    cases e with
    | call q g' =>
      cases hg
      rcases waitN_calls he' with ⟨a, rfl, rfl, ha, rfl⟩ | ⟨a, rfl, rfl, ha, rfl⟩ |
        ⟨j, m, a, rfl, rfl, ha, rfl⟩ | ⟨j, a, rfl, -, rfl, ha, rfl⟩
      all_goals cases a <;> constructor
    | _ => cases hg
  | notifyChild n q p =>
    obtain ⟨e, he', rfl⟩ := Option.map_eq_some_iff.mp he
    cases p <;> simp only [noteNotifyChild, lockNote] at he' <;> (repeat' split at he') <;>
      cases he' <;> cases hg
    constructor
  | notify n p =>
    obtain ⟨e, he', rfl⟩ := Option.map_eq_some_iff.mp he
    cases p <;> simp only [notify, lockNote, tryLockNote] at he' <;> (repeat' split at he') <;>
      cases he' <;> cases hg
    constructor
  | deadline n b p =>
    obtain ⟨e, he', rfl⟩ := Option.map_eq_some_iff.mp he
    cases p <;> simp only [noteNotifiedDeadline, lockNote] at he' <;> (repeat' split at he') <;>
      cases he' <;> cases hg
    constructor
  | isNotified n p =>
    obtain ⟨e, he', rfl⟩ := Option.map_eq_some_iff.mp he
    cases p <;> cases he' <;> cases hg
    constructor
  | noteNotify n p =>
    obtain ⟨e, he', rfl⟩ := Option.map_eq_some_iff.mp he
    cases p <;> cases he' <;> cases hg <;> constructor
  | noteDequeue n nw b p =>
    obtain ⟨e, he', rfl⟩ := Option.map_eq_some_iff.mp he
    cases p <;> simp only [noteDequeue, lockNote] at he' <;> (repeat' split at he') <;>
      cases he' <;> cases hg
    constructor
  | noteNew q d p =>
    obtain ⟨e, he', rfl⟩ := Option.map_eq_some_iff.mp he
    cases q <;> cases p <;>
      simp only [noteNew, lockNote, Option.bind_none, Option.bind_some, Option.map_none,
        Option.map_some] at he' <;> (repeat' split at he') <;> cases he' <;> cases hg <;>
      constructor
  | semWait d cancel p =>
    obtain ⟨e, he', rfl⟩ := Option.map_eq_some_iff.mp he
    cases cancel <;> cases p <;>
      simp only [semWaitWithCancel, lockNote, semaphoreP, Option.bind_none, Option.bind_some,
        Option.map_none, Option.map_some] at he' <;> (repeat' split at he') <;> cases he' <;>
      cases hg <;> constructor
  | _ =>
    cases e with
    | call f' g' =>
      obtain ⟨q, rfl⟩ := place_of_map he rfl
      exact ((hfits.callee _ g' rfl).1 : False).elim
    | _ => cases hg

/-- A call begins knowing nothing. -/
theorem Frame.Entry.sound (h : g.Entry) : g.Sound s := by
  cases h <;> trivial

theorem Frame.Entry.dequeued (h : g.Entry) : g.dequeued = none := by
  cases h <;> rfl

/-! ## Steps -/

theorem Later.of_eq (hnote : s'.note = s.note) (hcounter : s'.counter = s.counter)
    (hnow : s.now ≤ s'.now) : Later s s' g := by
  refine ⟨fun n _ hr => ?_, fun n _ => by rw [hnote], fun k _ hr => ?_, hnow⟩
  · change (s'.note n).notifiedTime ≤ 0
    rw [hnote]
    exact hr
  · change (s'.counter k).value = 0#32
    rw [hcounter]
    exact hr

theorem Persists.sound (h : Persists s s' g) (hg : g.Sound s) : g.Sound s' :=
  hg.mono h.later h.ids h.waited

/-- The expiry times that a call knows of depend only on its notes. -/
theorem Later.congr (h : Later s s' f) (hasks : g.asks = f.asks) (hawaits : g.awaits = f.awaits) :
    Later s s' g :=
  ⟨h.note, fun n hn => h.expiry n (by rwa [hasks, hawaits] at hn), h.counter, h.now⟩

section

variable (h : Safe s) (hst : s.stack t = f :: rest) (he : action s t ch f = some e)
  (hcalm : ∀ c d old, f = .counterAdd c d (.cas old) → (s.counter c).value = old →
    assertsHold d (old + d) (s.counter c).waited = true)

include h hst he hcalm

theorem Safe.persists (hg : g ∈ s.stack u) : Persists s (apply s t rest e) g :=
  ⟨h.later hst he hcalm hg, h.locks.ids.known u g hg, h.waited u g hg⟩

theorem Safe.persists_place (hf' : e.place = some f') (hne : ∀ k, f ≠ .counterReady k .store)
    (hids : ∀ n ∈ f'.ids, n < s.notes) : Persists s (apply s t rest e) f' := by
  have hf : f ∈ s.stack t := hst ▸ List.mem_cons_self
  exact ⟨(h.later hst he hcalm hf).congr (place_asks he hf') (place_awaits he hf'), hids,
    place_waited he (h.waited t f hf) hne hf'⟩

theorem Safe.sound_place (hs : f.Sound s) (hf' : e.place = some f') :
    f'.Sound (apply s t rest e) := by
  have hf : f ∈ s.stack t := hst ▸ List.mem_cons_self
  by_cases hstore : ∃ n q, f = .notifyChild n q .store
  · obtain ⟨n, q, rfl⟩ := hstore
    cases he
    cases hf'
    change ((apply s t rest (.setNotified n _)).note n).notifiedTime ≤ 0
    unfold Note.notifiedTime
    rw [notified_apply]
    simp
  by_cases hready : ∃ k, f = .counterReady k .store
  · obtain ⟨k, rfl⟩ := hready
    cases he
    cases hf'
    trivial
  by_cases hnew : ∃ q d p, f = .noteNew q d p
  · obtain ⟨q, d, p, rfl⟩ := hnew
    obtain ⟨p', rfl⟩ := place_of_map he hf'
    trivial
  · have hfresh : e.fresh = 0 := by
      cases e with
      | malloc d f' =>
        obtain ⟨q, d, rfl⟩ := action_allowed he
        exact absurd ⟨q, d, _, rfl⟩ hnew
      | _ => rfl
    have hnum := (action_numbered h.locks.ids he (h.locks.ids.numbered hf)).place f' hf'
    rw [hfresh] at hnum
    refine (h.persists_place hst he hcalm hf' (fun k hk => hready ⟨k, hk⟩) hnum.known).sound ?_
    exact place_sound h hst he hs (fun n q hn => hstore ⟨n, q, hn⟩) hf'

theorem Safe.sound_resume (hi : Informed s) (htop : (0 : τ) < ⊤) (hv : e = .ret v)
    (hrest : rest = c :: l) : (c.resume v).Sound (apply s t rest e) := by
  have hf : f ∈ s.stack t := hst ▸ List.mem_cons_self
  subst hv hrest
  have hr := action_ret he
  have hcalls : c.Calls f.fn := (hst ▸ h.locks.stack.stack t : StackOk (f :: c :: l)).1
  have hc : c ∈ s.stack t := hst ▸ List.mem_cons_of_mem f List.mem_cons_self
  have hp := h.persists hst he hcalm hc
  have hresume : Persists s (apply s t (c :: l) (.ret v)) (c.resume v) :=
    ⟨hp.later.congr (resume_asks c v) (resume_awaits c v),
      fun n hn => hp.ids n (resume_ids c v hn),
      resume_waited hr hcalls (h.waited t f hf) (h.waited t c hc) (h.locals t c hc)⟩
  refine hresume.sound (resume_sound hr hcalls (hi.sound t f hf) (hi.sound t c hc)
    (h.locals t c hc) htop ?_)
  rintro w j d rfl rfl
  have hover : Over s f (.waitN w (.dequeueCalled j)) := by
    have := hi.reason t
    rw [hst] at this
    exact this.1
  have hw := hover w j rfl
  cases hr <;> exact hw

/-- A call of `nsync_wait_n` that dequeues a record has a reason. -/
theorem Safe.over_call (hs : f.Sound s) (hg : e = .call f' g) : Over s g f' := by
  have hf : f ∈ s.stack t := hst ▸ List.mem_cons_self
  have hfits := action_fits he (h.locks.stack.past t f hf)
  subst hg
  rintro w j rfl
  rw [(callee_entry he hfits rfl).dequeued]
  cases f with
  | waitN w' p =>
    obtain ⟨e, he', hm⟩ := Option.map_eq_some_iff.mp he
    cases e with
    | call q g' =>
      rcases waitN_calls he' with ⟨a, rfl, rfl, -, -⟩ | ⟨a, rfl, rfl, -, -⟩ |
        ⟨k, m, a, rfl, rfl, -, -⟩ | ⟨k, a, rfl, -, rfl, -, -⟩
      · cases hm
      · cases hm
      · cases hm
      · cases hm
        exact hs.1
    | _ => cases hm
  | _ =>
    obtain ⟨q, hq⟩ := place_of_map he rfl
    cases hq

theorem Safe.over_stack (hi : Informed s) : OverOk s (e.stack f rest) := by
  have hf : f ∈ s.stack t := hst ▸ List.mem_cons_self
  have hold : OverOk s (f :: rest) := hst ▸ hi.reason t
  obtain ⟨f', hf', heq⟩ | ⟨v, rfl, heq⟩ | ⟨rfl, heq⟩ := e.stack_cases f rest
  · have hplace : OverOk s (f' :: rest) := by
      refine hold.replace fun c l hrest ho => ?_
      subst hrest
      exact place_over h hst he (hi.sound t f hf) ho hf'
    rw [heq]
    cases e with
    | call f'' g =>
      cases hf'
      exact ⟨h.over_call hst he hcalm (hi.sound t f hf) rfl, hplace⟩
    | _ => exact hplace
  · rw [heq]
    cases rest with
    | nil => trivial
    | cons c l =>
      refine hold.2.replace fun c' l' _ ho => ?_
      intro w j hw
      rw [resume_dequeued]
      exact ho w j hw
  · rw [heq]
    exact hold

end

theorem waitN_ids (w : WaitN τ) (p : WaitPc τ) :
    (Frame.waitN w p).ids = (Frame.waitN w p).awaits := rfl

/-- What a call of `nsync_wait_n` knows it knows after an operation. -/
theorem Safe.persists_waitN (h : Safe s) (hst : s.stack t = f :: rest)
    (he : action s t ch f = some e)
    (hcalm : ∀ c d old, f = .counterAdd c d (.cas old) → (s.counter c).value = old →
      assertsHold d (old + d) (s.counter c).waited = true) :
    ∀ g ∈ e.stack f rest, ∀ w p, g = .waitN w p → Persists s (apply s t rest e) g := by
  have hf : f ∈ s.stack t := hst ▸ List.mem_cons_self
  refine forall_mem_stack (P := fun g => ∀ w p, g = .waitN w p → Persists s (apply s t rest e) g)
    ?_ ?_ ?_ ?_
  · intro g hg w p _
    exact h.persists hst he hcalm (hst ▸ hg : g ∈ s.stack t)
  · rintro f' hf' w p rfl
    have hw : ∃ w' p', f = .waitN w' p' := by
      cases f with
      | waitN w' p' => exact ⟨w', p', rfl⟩
      | _ =>
        obtain ⟨q, hq⟩ := place_of_map he hf'
        cases hq
    obtain ⟨w', p', rfl⟩ := hw
    refine h.persists_place hst he hcalm hf' (fun k hk => by cases hk) fun n hn => ?_
    rw [waitN_ids, place_awaits he hf'] at hn
    exact h.locks.ids.known t _ hf n hn
  · rintro g hg w p rfl
    have hne := (action_fits he (h.locks.stack.past t f hf)).callee_ne_client hg
    exact absurd rfl hne
  · rintro v c l rfl rfl w p hw
    have hc : c ∈ s.stack t := hst ▸ List.mem_cons_of_mem f List.mem_cons_self
    have hcalls : c.Calls f.fn := (hst ▸ h.locks.stack.stack t : StackOk (f :: c :: l)).1
    have hp := h.persists hst he hcalm hc
    exact ⟨hp.later.congr (resume_asks c v) (resume_awaits c v),
      fun n hn => hp.ids n (resume_ids c v hn), resume_waited (action_ret he) hcalls
        (h.waited t f hf) (h.waited t c hc) (h.locals t c hc)⟩

/-- Nothing happens to notes and counters. -/
theorem Informed.of_eq (h : Safe s) (hi : Informed s) (hnote : s'.note = s.note)
    (hcounter : s'.counter = s.counter) (hnow : s.now ≤ s'.now)
    (hstack : ∀ u, s'.stack u = s.stack u ∨ ∃ c : Call τ, s'.stack u = [c.frame]) :
    Informed s' := by
  have hold : ∀ u, ∀ f ∈ s.stack u, Persists s s' f := fun u f hf =>
    ⟨Later.of_eq hnote hcounter hnow, h.locks.ids.known u f hf, h.waited u f hf⟩
  refine ⟨fun u f hf => ?_, fun u => ?_⟩
  · rcases hstack u with heq | ⟨c, heq⟩
    · rw [heq] at hf
      exact (hold u f hf).sound (hi.sound u f hf)
    · rw [heq, List.mem_singleton] at hf
      subst hf
      cases c with
      | semWaitWithCancel d cancel => cases cancel <;> trivial
      | _ => trivial
  · rcases hstack u with heq | ⟨c, heq⟩
    · rw [heq]
      exact (hi.reason u).mono fun w p hw => hold u _ hw
    · rw [heq]
      trivial

theorem step_informed {i : T × Act τ} (hs : step i s = some s') (hl : Legal i s) (h : Safe s)
    (hi : Informed s) (htop : (0 : τ) < ⊤) : Informed s' := by
  obtain ⟨-, ⟨c, -, -, rfl⟩ | ⟨ch, f, rest, e, hi2, hst, he, rfl⟩ | ⟨-, rfl⟩ | ⟨x, -, hx, rfl⟩⟩ :=
    step_cases hs
  · refine hi.of_eq h rfl rfl le_rfl fun u => ?_
    by_cases hu : u = i.1
    · subst hu
      exact Or.inr ⟨c, State.setStack_stack_self _ _ _⟩
    · exact Or.inl (State.setStack_stack_of_ne _ _ hu)
  · have hcalm : ∀ c d old, f = .counterAdd c d (.cas old) → (s.counter c).value = old →
        assertsHold d (old + d) (s.counter c).waited = true := by
      intro c d old hf hv
      have hc := hl.2
      rw [Calm, hi2, hst, hf] at hc
      exact hc hv
    have hf : f ∈ s.stack i.1 := hst ▸ List.mem_cons_self
    refine ⟨?_, fun u => ?_⟩
    · refine forall_frames_apply (P := fun u g => g ∈ s.stack u ∧ g.Sound s) hst
        (fun u g hg => ⟨hg, hi.sound u g hg⟩) (fun u g hg => ?_) ?_ ?_ ?_
      · exact (h.persists hst he hcalm hg.1).sound hg.2
      · intro f' hf'
        exact h.sound_place hst he hcalm (hi.sound i.1 f hf) hf'
      · intro g hg
        exact (callee_entry he (action_fits he (h.locks.stack.past i.1 f hf)) hg).sound
      · intro v c l hv hrest
        exact h.sound_resume hst he hcalm hi htop hv hrest
    · by_cases hu : u = i.1
      · subst hu
        rw [stack_apply hst]
        refine (h.over_stack hst he hcalm hi).mono fun w p hw => ?_
        exact h.persists_waitN hst he hcalm _ hw w p rfl
      · rw [stack_apply_ne hu]
        exact (hi.reason u).mono fun w p hw => h.persists hst he hcalm hw
  · exact hi.of_eq h rfl rfl le_rfl fun u => Or.inl rfl
  · exact hi.of_eq h rfl rfl hx fun u => Or.inl rfl

theorem informed_initial (value : ℕ → Word) (sem : T → ℕ) (now : τ) :
    Informed (initial value sem now) :=
  ⟨fun _ _ hf => absurd hf List.not_mem_nil, fun _ => trivial⟩

theorem reach_informed {value : ℕ → Word} {sem : T → ℕ} {now : τ}
    (h : Reach step Legal (initial value sem now) s) (htop : (0 : τ) < ⊤) : Informed s := by
  have hboth : Safe s ∧ Informed s :=
    h.invariant (I := fun s => Safe s ∧ Informed s) ⟨safe_initial value sem now, informed_initial value sem now⟩
      fun _ _ _ _ hs hl hstep =>
        ⟨step_safe hstep hl hs.1, step_informed hstep hl hs.1 hs.2 htop⟩
  exact hboth.2

end

end Nsync.Wait
