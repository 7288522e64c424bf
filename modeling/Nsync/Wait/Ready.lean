import Nsync.Wait.Records

/-!
# When objects are ready

A note that is not being created and a counter that has been waited for do not stop
being ready.  No client waits for a note before `nsync_note_new` has returned it, and
`nsync_wait_n` marks a counter as waited for before it enqueues a record.
-/

set_option linter.unusedSectionVars false

namespace Nsync.Wait

open Nsync.Lib

variable {T τ : Type}

/-- The list of records of an object. -/
def State.waiters (s : State T τ) : Waitable → List ℕ
  | .note n => (s.note n).waiters
  | .counter c => (s.counter c).waiters

/-- The owner of the mutex of an object. -/
def State.mu (s : State T τ) : Waitable → Option T
  | .note n => (s.note n).noteMu
  | .counter c => (s.counter c).counterMu

/-- The note is notified, or the counter is zero. -/
def State.Ready [LE τ] [Zero τ] [Top τ] (s : State T τ) : Waitable → Prop
  | .note n => (s.note n).notifiedTime ≤ 0
  | .counter c => (s.counter c).value = 0#32

/-- The functions that notify a note or ask whether it is notified. -/
def Fn.OfNote : Fn τ → Prop
  | .notifyChild _ _ | .notify _ | .deadline _ _ | .isNotified _ | .noteNotify _ => True
  | _ => False

/-- The counters that the call waits for have been marked. -/
def Frame.Waited (s : State T τ) : Frame τ → Prop
  | .counterReady c p =>
      match p with
      | .store => True
      | _ => (s.counter c).waited = true
  | .counterEnqueue c _ _ | .counterDequeue c _ _ => (s.counter c).waited = true
  | .waitN w p =>
      match p with
      | .first | .firstCalled =>
          ∀ k < w.ready, ∀ c, w.waitable[k]? = some (.counter c) → (s.counter c).waited = true
      | .result =>
          (w.queueing = true → ∀ c, .counter c ∈ w.waitable → (s.counter c).waited = true) ∧
          ∀ k ≤ w.ready, ∀ c, w.waitable[k]? = some (.counter c) → (s.counter c).waited = true
      | _ => ∀ c, .counter c ∈ w.waitable → (s.counter c).waited = true
  | _ => True

/-- The notes that the call waits for. -/
def Frame.awaits : Frame τ → List ℕ
  | .noteEnqueue n _ _ | .noteDequeue n _ _ _ => [n]
  | .semWait _ cancel _ => cancel.toList
  | .waitN w _ => noteIds w.waitable
  | _ => []

/-- Nobody waits for a note that is being created. -/
def Hidden (s : State T τ) : Prop :=
  ∀ u, ∀ f ∈ s.stack u, ∀ n, f.creating = some n → ∀ t, ∀ g ∈ s.stack t, n ∉ g.awaits

def WaitedOk (s : State T τ) : Prop := ∀ t, ∀ f ∈ s.stack t, f.Waited s

section

variable [DecidableEq T] [LinearOrder τ] [OrderTop τ] [Zero τ] {s s' : State T τ} {t u : T}
  {ch : Choice} {f f' g c : Frame τ} {e : Eff τ (Frame τ)} {rest l : List (Frame τ)} {v : Val τ}
  {w : WaitN τ} {p : WaitPc τ} {n : ℕ}

/-! ## Counters that are waited for -/

theorem waited_mono (h : (s.counter n).waited = true) :
    ((apply s t rest e).counter n).waited = true := by
  rw [waited_apply]
  cases e with
  | setWaited c f' =>
    simp only
    split
    · rfl
    · exact h
  | _ => exact h

theorem Frame.Waited.mono (h : f.Waited s)
    (hs : ∀ c, (s.counter c).waited = true → (s'.counter c).waited = true) : f.Waited s' := by
  cases f with
  | counterReady c p =>
    cases p with
    | store => trivial
    | _ => exact hs c h
  | counterEnqueue c nw p => exact hs c h
  | counterDequeue c nw p => exact hs c h
  | waitN w p =>
    cases p with
    | first => exact fun k hk c hc => hs c (h k hk c hc)
    | firstCalled => exact fun k hk c hc => hs c (h k hk c hc)
    | result =>
      exact ⟨fun hq c hc => hs c (h.1 hq c hc), fun k hk c hc => hs c (h.2 k hk c hc)⟩
    | _ => exact fun c hc => hs c (h c hc)
  | _ => trivial

/-- All objects have been asked for their time. -/
theorem waited_all (h : (Frame.waitN w .first : Frame τ).Waited s) (hlen : w.waitable.length ≤ w.ready)
    (c : ℕ) (hc : .counter c ∈ w.waitable) : (s.counter c).waited = true := by
  obtain ⟨k, hk⟩ := List.mem_iff_getElem?.mp hc
  exact h k ((List.getElem?_eq_some_iff.mp hk).1.trans_le hlen) c hk

/-- The call goes on with the same counters. -/
theorem place_waited (h : action s t ch f = some e) (hf : f.Waited s)
    (hne : ∀ c, f ≠ .counterReady c .store) (hf' : e.place = some f') : f'.Waited s := by
  cases f with
  | counterReady c p =>
    obtain ⟨e, he, rfl⟩ := Option.map_eq_some_iff.mp h
    cases p with
    | store => exact absurd rfl (hne c)
    | load =>
      cases he
      cases hf'
      exact hf
    | result r =>
      cases he
      cases hf'
  | counterEnqueue c nw p =>
    obtain ⟨q, rfl⟩ := place_of_map h hf'
    exact hf
  | counterDequeue c nw p =>
    obtain ⟨q, rfl⟩ := place_of_map h hf'
    exact hf
  | waitN w p =>
    obtain ⟨e, he, rfl⟩ := Option.map_eq_some_iff.mp h
    cases p with
    | first =>
      rw [waitN] at he
      split at he
      · cases he
        cases hf'
        exact hf
      · next hnone =>
        cases he
        cases hf'
        have hall := waited_all hf (List.getElem?_eq_none_iff.mp hnone)
        split
        · exact hall
        · exact ⟨fun _ => hall, fun k _ c hk => hall c (List.mem_of_getElem? hk)⟩
    | _ =>
      simp only [waitN, semaphoreP] at he
      (repeat' split at he) <;> cases he <;> cases hf' <;>
        first
        | exact hf
        | exact ⟨fun _ => hf, fun k _ c hk => hf c (List.mem_of_getElem? hk)⟩
  | _ =>
    obtain ⟨q, rfl⟩ := place_of_map h hf'
    trivial

/-- The first thing that `counter_ready_time` does is to mark the counter. -/
theorem store_waited {k : ℕ} (h : action s t ch (.counterReady k .store) = some e)
    (hf' : e.place = some f') :
    f' = .counterReady k .load ∧ ((apply s t rest e).counter k).waited = true := by
  cases h
  cases hf'
  refine ⟨rfl, ?_⟩
  change ((apply s t rest (.setWaited k _)).counter k).waited = true
  rw [waited_apply]
  simp

theorem Calls.waitN_or {k : Fn τ} (h : c.Calls k) : (∃ w p, c = .waitN w p) ∨ k.OfNote := by
  unfold Frame.Calls at h
  split at h
  all_goals first | exact h.elim | exact Or.inl ⟨_, _, rfl⟩ | exact Or.inr trivial

theorem Fits.callee_ofNote (hfits : Fits s.now f e) (hf : ∀ w p, f ≠ .waitN w p)
    (h : action s t ch f = some e) (hg : e.callee = some g) : g.fn.OfNote := by
  cases e with
  | call f' g' =>
    cases hg
    rcases Calls.waitN_or (hfits.callee f' g rfl).1 with ⟨w, p, rfl⟩ | hk
    · cases f with
      | waitN w' p' => exact absurd rfl (hf w' p')
      | _ =>
        obtain ⟨q, hq⟩ := place_of_map h rfl
        cases hq
    · exact hk
  | _ => cases hg

theorem callee_waited (h : action s t ch f = some e) (hfits : Fits s.now f e) (hf : f.Waited s)
    (hg : e.callee = some g) : g.Waited s := by
  cases f with
  | waitN w p =>
    obtain ⟨e, he, rfl⟩ := Option.map_eq_some_iff.mp h
    rw [Eff.callee_map] at hg
    cases e with
    | call q g' =>
      cases hg
      rcases waitN_calls he with ⟨a, rfl, rfl, ha, rfl⟩ | ⟨a, rfl, rfl, ha, rfl⟩ |
        ⟨j, m, a, rfl, rfl, ha, rfl⟩ | ⟨j, a, rfl, -, rfl, ha, rfl⟩
      · cases a <;> trivial
      · cases a with
        | note n => trivial
        | counter c => exact hf c (List.mem_of_getElem? ha)
      · cases a <;> trivial
      · cases a with
        | note n => trivial
        | counter c => exact hf c (List.mem_of_getElem? ha)
    | _ => cases hg
  | _ =>
    have hnote := hfits.callee_ofNote (fun _ _ hw => by cases hw) h hg
    cases g <;> trivial

theorem resume_waited (hr : Returns f v) (hc : c.Calls f.fn) (hf : f.Waited s) (hw : c.Waited s)
    (hl : c.LocalsOk) : (c.resume v).Waited s := by
  cases c with
  | waitN w p =>
    cases p with
    | firstCalled =>
      obtain ⟨a, ha, hread⟩ := hc
      cases hr <;> try (cases a <;> exact hread.elim)
      all_goals
        simp only [Frame.resume]
        have hle : ∀ k ≤ w.ready, ∀ c, w.waitable[k]? = some (.counter c) →
            (s.counter c).waited = true := by
          intro k hk c hc
          rcases hk.lt_or_eq with hk | rfl
          · exact hw k hk c hc
          · rw [ha] at hc
            cases hc
            cases hread
            try exact hf
        split
        · exact fun k hk => hle k (Nat.lt_succ_iff.mp hk)
        · have hu : w.Unqueued := hl
          refine ⟨fun hq => ?_, hle⟩
          rw [hu.queueing] at hq
          cases hq
    | enqueueCalled =>
      cases v <;> try exact hw
      simp only [Frame.resume]
      split <;> exact hw
    | scanCalled j m => cases v <;> exact hw
    | dequeueCalled j => cases v <;> exact hw
    | _ => exact hc.elim
  | _ =>
    unfold Frame.resume
    repeat' split
    all_goals trivial

theorem Call.waited (c : Call τ) : c.frame.Waited s := by
  cases c with
  | waitN mu d ws => exact fun k hk => absurd hk (Nat.not_lt_zero k)
  | _ => trivial

theorem step_waitedOk {i : T × Act τ} (hs : step i s = some s') (hok : StacksOk s)
    (hl : LocalsOk s) (h : WaitedOk s) : WaitedOk s' := by
  obtain ⟨-, ⟨c, -, -, rfl⟩ | ⟨ch, f, rest, e, -, hst, he, rfl⟩ | ⟨-, rfl⟩ | ⟨x, -, -, rfl⟩⟩ :=
    step_cases hs
  · exact forall_frames_call h c.waited
  · have hf : f ∈ s.stack i.1 := hst ▸ List.mem_cons_self
    have hmono : ∀ g : Frame τ, g.Waited s → g.Waited (apply s i.1 rest e) :=
      fun g hg => hg.mono fun c => waited_mono
    refine forall_frames_apply hst h (fun _ => hmono) ?_ ?_ ?_
    · intro f' hf'
      by_cases hne : ∃ k, f = .counterReady k .store
      · obtain ⟨k, rfl⟩ := hne
        obtain ⟨rfl, hk⟩ : f' = .counterReady k .load ∧
            ((apply s i.1 rest e).counter k).waited = true := store_waited he hf'
        exact hk
      · exact hmono f' (place_waited he (h i.1 f hf) (fun k hk => hne ⟨k, hk⟩) hf')
    · intro g hg
      exact hmono g (callee_waited he (action_fits he (hok.past i.1 f hf)) (h i.1 f hf) hg)
    · rintro v c l rfl rfl
      have hcalls : c.Calls f.fn := (hst ▸ hok.stack i.1 : StackOk (f :: c :: l)).1
      have hc : c ∈ s.stack i.1 := hst ▸ List.mem_cons_of_mem f List.mem_cons_self
      exact hmono _ (resume_waited (action_ret he) hcalls (h i.1 f hf) (h i.1 c hc) (hl i.1 c hc))
  · exact h
  · exact h

/-! ## Notes that are being created -/

theorem resume_awaits (f : Frame τ) (v : Val τ) : (f.resume v).awaits = f.awaits := by
  unfold Frame.resume
  repeat' split
  all_goals rfl

theorem place_awaits (h : action s t ch f = some e) (hf' : e.place = some f') :
    f'.awaits = f.awaits := by
  cases f with
  | waitN w p =>
    obtain ⟨e, he, rfl⟩ := Option.map_eq_some_iff.mp h
    cases p <;> simp only [waitN, semaphoreP] at he <;> (repeat' split at he) <;> cases he <;>
      cases hf' <;> rfl
  | _ =>
    obtain ⟨q, rfl⟩ := place_of_map h hf'
    rfl

theorem callee_awaits (h : action s t ch f = some e) (hfits : Fits s.now f e)
    (hg : e.callee = some g) : g.awaits ⊆ f.awaits := by
  cases f with
  | waitN w p =>
    obtain ⟨e, he, rfl⟩ := Option.map_eq_some_iff.mp h
    rw [Eff.callee_map] at hg
    cases e with
    | call q g' =>
      cases hg
      have hmem : ∀ {j n : ℕ}, w.waitable[j]? = some (Waitable.note n) → [n] ⊆ noteIds w.waitable := by
        intro j n hj
        exact List.cons_subset.mpr ⟨mem_ids_of_waitable hj, List.nil_subset _⟩
      rcases waitN_calls he with ⟨a, rfl, rfl, ha, rfl⟩ | ⟨a, rfl, rfl, ha, rfl⟩ |
        ⟨j, m, a, rfl, rfl, ha, rfl⟩ | ⟨j, a, rfl, -, rfl, ha, rfl⟩
      · cases a <;> exact List.nil_subset _
      · cases a with
        | note n => exact hmem ha
        | counter c => exact List.nil_subset _
      · cases a <;> exact List.nil_subset _
      · cases a with
        | note n => exact hmem ha
        | counter c => exact List.nil_subset _
    | _ => cases hg
  | _ =>
    have hnote := hfits.callee_ofNote (fun _ _ hw => by cases hw) h hg
    cases g <;> first | exact List.nil_subset _ | exact hnote.elim

theorem awaits_subset_ids (f : Frame τ) : f.awaits ⊆ f.ids := by
  cases f <;> first | exact List.nil_subset _ | exact List.Subset.refl _

theorem resume_creating (f : Frame τ) (v : Val τ) : (f.resume v).creating = f.creating := by
  unfold Frame.resume
  repeat' split
  all_goals rfl

theorem place_creating (h : action s t ch f = some e) (hf' : e.place = some f')
    (hn : f'.creating = some n) :
    f.creating = some n ∨ (n = s.notes ∧ e.callee = none) := by
  cases f with
  | noteNew parent d p =>
    obtain ⟨e, he, rfl⟩ := Option.map_eq_some_iff.mp h
    cases parent <;> cases p <;>
      simp only [noteNew, lockNote, Option.bind_none, Option.bind_some, Option.map_none,
        Option.map_some] at he <;> (repeat' split at he) <;> cases he <;> cases hf' <;>
      first
      | exact Or.inl hn
      | (cases hn; done)
      | (cases hn; exact Or.inr ⟨rfl, rfl⟩)
  | _ =>
    obtain ⟨q, rfl⟩ := place_of_map h hf'
    cases hn

/-- A note that is being created was so before, or is new. -/
theorem creating_apply (hst : s.stack t = f :: rest) (he : action s t ch f = some e)
    (hfits : Fits s.now f e) : ∀ u, ∀ g ∈ (apply s t rest e).stack u, ∀ n, g.creating = some n →
      (∃ g' ∈ s.stack u, g'.creating = some n) ∨ (n = s.notes ∧ u = t) := by
  have hf : f ∈ s.stack t := hst ▸ List.mem_cons_self
  refine forall_frames_apply (P := fun u g => ∀ n, g.creating = some n →
      (∃ g' ∈ s.stack u, g'.creating = some n) ∨ (n = s.notes ∧ u = t))
    hst (fun u g hg n hn => Or.inl ⟨g, hg, hn⟩) (fun _ _ h => h) ?_ ?_ ?_
  · intro f' hf' n hn
    rcases place_creating he hf' hn with hn | ⟨hn, -⟩
    · exact Or.inl ⟨f, hf, hn⟩
    · exact Or.inr ⟨hn, rfl⟩
  · intro g hg n hn
    have hne := hfits.callee_ne_client hg
    cases g <;> first | exact absurd rfl hne | cases hn
  · rintro v c l rfl rfl n hn
    exact Or.inl ⟨c, hst ▸ List.mem_cons_of_mem f List.mem_cons_self, resume_creating c v ▸ hn⟩

theorem Call.awaits_subset (c : Call τ) : c.frame.awaits ⊆ c.notes := by
  cases c <;> first | exact List.nil_subset _ | exact List.Subset.refl _

theorem step_hidden {i : T × Act τ} (hs : step i s = some s') (hP : Proper i s) (hi : IdsOk s)
    (hok : StacksOk s) (h : Hidden s) : Hidden s' := by
  obtain ⟨-, ⟨c, hc, -, rfl⟩ | ⟨ch, f, rest, e, -, hst, he, rfl⟩ | ⟨-, rfl⟩ | ⟨x, -, -, rfl⟩⟩ :=
    step_cases hs
  · rw [Proper, hc] at hP
    have hnew : ∀ n ∈ c.frame.awaits, ∀ u, ∀ f ∈ s.stack u, f.creating ≠ some n :=
      fun n hn => (hP.1 n (c.awaits_subset hn)).created
    have hcreate : c.frame.creating = none := by cases c <;> rfl
    refine forall_frames_call (P := fun _ f => ∀ n, f.creating = some n → ∀ t,
      ∀ g ∈ (s.setStack i.1 [c.frame]).stack t, n ∉ g.awaits) ?_ ?_
    · intro u f hf n hn
      refine forall_frames_call (P := fun _ g => n ∉ g.awaits) ?_ ?_
      · exact h u f hf n hn
      · intro hm
        exact hnew n hm u f hf hn
    · intro n hn
      rw [hcreate] at hn
      cases hn
  · have hf : f ∈ s.stack i.1 := hst ▸ List.mem_cons_self
    have hfits := action_fits he (hok.past i.1 f hf)
    have hawaits : ∀ t, ∀ g ∈ (apply s i.1 rest e).stack t, ∀ n ∈ g.awaits,
        ∃ g' ∈ s.stack t, n ∈ g'.awaits := by
      refine forall_frames_apply (P := fun t g => ∀ n ∈ g.awaits, ∃ g' ∈ s.stack t, n ∈ g'.awaits)
        hst (fun t g hg n hn => ⟨g, hg, hn⟩) (fun _ _ h => h) ?_ ?_ ?_
      · intro f' hf' n hn
        exact ⟨f, hf, place_awaits he hf' ▸ hn⟩
      · intro g hg n hn
        exact ⟨f, hf, callee_awaits he hfits hg hn⟩
      · rintro v c l rfl rfl n hn
        exact ⟨c, hst ▸ List.mem_cons_of_mem f List.mem_cons_self, resume_awaits c v ▸ hn⟩
    intro u g hg n hn t g' hg' hn'
    obtain ⟨k, hk, hkn⟩ := hawaits t g' hg' n hn'
    rcases creating_apply hst he hfits u g hg n hn with ⟨k', hk', hk'n⟩ | ⟨rfl, -⟩
    · exact h u k' hk' n hk'n t k hk hkn
    · exact lt_irrefl _ (hi.known t k hk _ (awaits_subset_ids k hkn))
  · exact h
  · exact h

/-! ## Notes that nobody asks about yet -/

/-- The notes that the call asks about. -/
def Frame.asks : Frame τ → List ℕ
  | .isNotified n _ | .noteNotify n _ | .deadline n _ _ => [n]
  | _ => []

/-- Only one thread creates a note, and the others do not ask about it. -/
def Private (s : State T τ) : Prop :=
  ∀ u, ∀ f ∈ s.stack u, ∀ n, f.creating = some n →
    ∀ t, t ≠ u → ∀ g ∈ s.stack t, n ∉ g.asks ∧ g.creating ≠ some n

theorem asks_subset_ids (f : Frame τ) : f.asks ⊆ f.ids := by
  cases f <;> first | exact List.nil_subset _ | exact List.Subset.refl _

theorem creating_mem_ids (h : f.creating = some n) : n ∈ f.ids := by
  cases f with
  | noteNew parent d p =>
    cases p with
    | malloc => cases h
    | result m =>
      have hm : m = some n := h
      rw [hm]
      exact List.mem_append_right _ List.mem_cons_self
    | _ =>
      cases h
      exact List.mem_append_right _ List.mem_cons_self
  | _ => cases h

theorem resume_asks (f : Frame τ) (v : Val τ) : (f.resume v).asks = f.asks := by
  unfold Frame.resume
  repeat' split
  all_goals rfl

theorem place_asks (h : action s t ch f = some e) (hf' : e.place = some f') :
    f'.asks = f.asks := by
  cases f <;> (obtain ⟨q, rfl⟩ := place_of_map h hf'; rfl)

/-- A call asks about the notes that its caller asks about, waits for or creates. -/
theorem Calls.asks (h : c.Calls g.fn) (hn : n ∈ g.asks) :
    n ∈ c.asks ∨ n ∈ c.awaits ∨ c.creating = some n := by
  have hnote : ∀ {w : WaitN τ} {j : ℕ} {a : Waitable} {m : ℕ} {b : τ},
      w.waitable[j]? = some a → a.Readies (.deadline m b) → m ∈ noteIds w.waitable := by
    intro w j a m b hj ha
    cases a with
    | note k =>
      have hk : m = k := ha
      exact hk ▸ mem_ids_of_waitable hj
    | counter k => exact ha.elim
  cases g with
  | isNotified m q =>
    cases List.mem_singleton.mp hn
    cases c with
    | noteNew parent d p =>
      cases p with
      | called k =>
        have hk : n = k := h
        exact Or.inr (Or.inr (congrArg some hk.symm))
      | _ => exact h.elim
    | waitN w p =>
      cases p <;> try exact h.elim
      all_goals
        obtain ⟨a, -, ha⟩ := h
        cases a <;> exact ha.elim
    | semWait d cancel p => cases cancel <;> cases p <;> exact h.elim
    | _ => rename_i p; cases p <;> exact h.elim
  | noteNotify m q =>
    cases List.mem_singleton.mp hn
    cases c with
    | semWait d cancel p =>
      cases cancel <;> cases p <;> try exact h.elim
      have hm : n = _ := h
      exact Or.inr (Or.inl (List.mem_singleton.mpr hm))
    | waitN w p =>
      cases p <;> try exact h.elim
      all_goals
        obtain ⟨a, -, ha⟩ := h
        cases a <;> exact ha.elim
    | _ => rename_i p; cases p <;> exact h.elim
  | deadline m b q =>
    cases List.mem_singleton.mp hn
    cases c with
    | isNotified k p =>
      cases p <;> try exact h.elim
      exact Or.inl (List.mem_singleton.mpr h)
    | noteNotify k p =>
      cases p <;> try exact h.elim
      exact Or.inl (List.mem_singleton.mpr h)
    | noteDequeue k nw b' p =>
      cases p <;> try exact h.elim
      exact Or.inr (Or.inl (List.mem_singleton.mpr h.1))
    | semWait d cancel p =>
      cases cancel <;> cases p <;> try exact h.elim
      exact Or.inr (Or.inl (List.mem_singleton.mpr h))
    | waitN w p =>
      cases p <;> try exact h.elim
      all_goals
        obtain ⟨a, hj, ha⟩ := h
        first
        | exact Or.inr (Or.inl (hnote hj ha))
        | (cases a <;> exact ha.elim)
    | _ => rename_i p; cases p <;> exact h.elim
  | _ => exact absurd hn List.not_mem_nil

theorem asks_apply (hst : s.stack t = f :: rest) (he : action s t ch f = some e)
    (hfits : Fits s.now f e) : ∀ u, ∀ g ∈ (apply s t rest e).stack u, ∀ n ∈ g.asks,
      ∃ g' ∈ s.stack u, n ∈ g'.asks ∨ n ∈ g'.awaits ∨ g'.creating = some n := by
  have hf : f ∈ s.stack t := hst ▸ List.mem_cons_self
  refine forall_frames_apply (P := fun u g => ∀ n ∈ g.asks,
      ∃ g' ∈ s.stack u, n ∈ g'.asks ∨ n ∈ g'.awaits ∨ g'.creating = some n)
    hst (fun u g hg n hn => ⟨g, hg, Or.inl hn⟩) (fun _ _ h => h) ?_ ?_ ?_
  · intro f' hf' n hn
    exact ⟨f, hf, Or.inl (place_asks he hf' ▸ hn)⟩
  · intro g hg n hn
    cases e with
    | call f' g' =>
      cases hg
      refine ⟨f, hf, ?_⟩
      rcases Calls.asks (hfits.callee f' g rfl).1 hn with hn | hn | hn
      · exact Or.inl (place_asks he rfl ▸ hn)
      · exact Or.inr (Or.inl (place_awaits he rfl ▸ hn))
      · rcases place_creating he rfl hn with hn | ⟨-, hnone⟩
        · exact Or.inr (Or.inr hn)
        · cases hnone
    | _ => cases hg
  · rintro v c l rfl rfl n hn
    exact ⟨c, hst ▸ List.mem_cons_of_mem f List.mem_cons_self, Or.inl (resume_asks c v ▸ hn)⟩

theorem step_private {i : T × Act τ} (hs : step i s = some s') (hP : Proper i s) (hi : IdsOk s)
    (hok : StacksOk s) (hh : Hidden s) (h : Private s) : Private s' := by
  obtain ⟨-, ⟨c, hc, -, rfl⟩ | ⟨ch, f, rest, e, -, hst, he, rfl⟩ | ⟨-, rfl⟩ | ⟨x, -, -, rfl⟩⟩ :=
    step_cases hs
  · rw [Proper, hc] at hP
    have hask : ∀ n ∈ c.frame.asks, ∀ u, ∀ f ∈ s.stack u, f.creating ≠ some n := by
      intro n hn
      have hmem : n ∈ c.notes := by
        cases c <;> first | exact hn | exact absurd hn List.not_mem_nil
      exact (hP.1 n hmem).created
    have hcreate : c.frame.creating = none := by cases c <;> rfl
    refine forall_frames_call (P := fun u f => ∀ n, f.creating = some n → ∀ t, t ≠ u →
      ∀ g ∈ (s.setStack i.1 [c.frame]).stack t, n ∉ g.asks ∧ g.creating ≠ some n) ?_ ?_
    · intro u f hf n hn t htu
      have hall : ∀ t, ∀ g ∈ (s.setStack i.1 [c.frame]).stack t, t ≠ u →
          n ∉ g.asks ∧ g.creating ≠ some n := by
        refine forall_frames_call (P := fun t g => t ≠ u → n ∉ g.asks ∧ g.creating ≠ some n) ?_ ?_
        · exact fun t g hg htu => h u f hf n hn t htu g hg
        · intro _
          refine ⟨fun hm => hask n hm u f hf hn, ?_⟩
          rw [hcreate]
          simp
      exact fun g hg => hall t g hg htu
    · intro n hn
      rw [hcreate] at hn
      cases hn
  · have hf : f ∈ s.stack i.1 := hst ▸ List.mem_cons_self
    have hfits := action_fits he (hok.past i.1 f hf)
    intro u g hg n hn t htu g' hg'
    refine ⟨fun hask => ?_, fun hcr => ?_⟩
    · obtain ⟨k, hk, hkn⟩ := asks_apply hst he hfits t g' hg' n hask
      rcases creating_apply hst he hfits u g hg n hn with ⟨k', hk', hk'n⟩ | ⟨rfl, -⟩
      · rcases hkn with hkn | hkn | hkn
        · exact (h u k' hk' n hk'n t htu k hk).1 hkn
        · exact hh u k' hk' n hk'n t k hk hkn
        · exact (h u k' hk' n hk'n t htu k hk).2 hkn
      · have hlt : s.notes ∈ k.ids := by
          rcases hkn with hkn | hkn | hkn
          · exact asks_subset_ids k hkn
          · exact awaits_subset_ids k hkn
          · exact creating_mem_ids hkn
        exact lt_irrefl _ (hi.known t k hk _ hlt)
    · rcases creating_apply hst he hfits u g hg n hn with ⟨k', hk', hk'n⟩ | ⟨rfl, hu⟩ <;>
        rcases creating_apply hst he hfits t g' hg' _ hcr with ⟨k, hk, hkn⟩ | ⟨hnew, ht⟩
      · exact (h u k' hk' n hk'n t htu k hk).2 hkn
      · subst hnew
        exact lt_irrefl _ (hi.known u k' hk' _ (creating_mem_ids hk'n))
      · exact lt_irrefl _ (hi.known t k hk _ (creating_mem_ids hkn))
      · exact htu (ht.trans hu.symm)
  · exact h
  · exact h

/-! ## Readiness -/

/-- The adds that trip no `ASSERT`: the assertions hold of the value that the thread is
about to store. -/
def Calm (i : T × Act τ) (s : State T τ) : Prop :=
  match i.2, s.stack i.1 with
  | .step _, .counterAdd c d (.cas old) :: _ =>
      (s.counter c).value = old → assertsHold d (old + d) (s.counter c).waited = true
  | _, _ => True

/-- A counter that has been waited for stays at zero. -/
theorem assertsHold_zero (d : Word) : assertsHold d (0#32 + d) true = false := by
  unfold assertsHold
  rw [BitVec.zero_add]
  split <;> simp

/-- The operation changes neither the flag nor the expiry time of the note. -/
def Eff.LeavesTime (n : ℕ) : Eff τ (Frame τ) → Prop
  | .setNotified m _ => m ≠ n
  | .link m _ _ _ => m ≠ n
  | _ => True

theorem notifiedTime_apply (hn : n < s.notes) (he : e.LeavesTime n) :
    ((apply s t rest e).note n).notifiedTime = (s.note n).notifiedTime := by
  unfold Note.notifiedTime
  rw [notified_apply, expiryTimeValid_apply, expiryTime_apply]
  cases e with
  | setNotified m f' =>
    simp only
    rw [if_neg (Ne.symm he)]
  | malloc d f' =>
    simp only
    rw [if_neg hn.ne, if_neg hn.ne, if_neg hn.ne]
  | link m p x f' =>
    simp only
    have hm : ¬ (n = m ∧ x < (s.note m).expiryTime) := fun h => he h.1.symm
    rw [if_neg hm]
  | _ => rfl

theorem notifiedTime_apply_le (hn : n < s.notes) (h : (s.note n).notifiedTime ≤ 0) :
    ((apply s t rest e).note n).notifiedTime ≤ 0 := by
  by_cases he : e.LeavesTime n
  · rw [notifiedTime_apply hn he]
    exact h
  unfold Note.notifiedTime at h ⊢
  rw [notified_apply, expiryTimeValid_apply, expiryTime_apply]
  cases e with
  | setNotified m f' =>
    have hm : m = n := not_not.mp he
    simp [hm]
  | link m p x f' =>
    have hm : m = n := not_not.mp he
    subst hm
    simp only [true_and]
    split
    · exact le_rfl
    · next hnot =>
      rw [if_neg hnot] at h
      split
      · next hv =>
        rw [if_pos hv] at h
        split
        · next hx => exact hx.le.trans h
        · exact h
      · next hv =>
        rw [if_neg hv] at h
        exact h
  | _ => exact absurd trivial he

end

end Nsync.Wait
