import Nsync.Wait.Waitable

/-!
# A note stays notified

What the clients of a note are promised: when one of them has learnt that the note is
notified, or has notified it, every later question about it gets the same answer.
-/

set_option linter.unusedSectionVars false

namespace Nsync.Wait

open Nsync.Lib

variable {T τ : Type}

section

variable [DecidableEq T] [LinearOrder τ] [OrderTop τ] [Zero τ] {s s' : State T τ} {t u : T}
  {ch : Choice} {f f' g c : Frame τ} {e : Eff τ (Frame τ)} {rest : List (Frame τ)} {v : Val τ}
  {n : ℕ} {i : T × Act τ}

/-- A call that asks about the note has not found it unnotified. -/
def Frame.Learnt (n : ℕ) : Frame τ → Prop
  | .deadline m _ (.unlock x) | .deadline m _ (.check x) | .deadline m _ (.result x) =>
      m = n → x ≤ 0
  | .isNotified m (.result b) => m = n → b = true
  | _ => True

/-- Only the functions that ask are concerned. -/
theorem Frame.Learnt.of_fn (hd : ∀ m a, f.fn ≠ .deadline m a) (hi : ∀ m, f.fn ≠ .isNotified m) :
    f.Learnt n := by
  cases f with
  | deadline m a p => exact absurd rfl (hd m a)
  | isNotified m p => exact absurd rfl (hi m)
  | _ => trivial

theorem Frame.Entry.learnt (h : g.Entry) : g.Learnt n := by
  cases h <;> trivial

theorem place_learnt (hr : s.Ready (.note n)) (he : action s t ch f = some e) (hf : f.Learnt n)
    (hf' : e.place = some f') : f'.Learnt n := by
  cases f with
  | deadline m a p =>
      obtain ⟨e, he', rfl⟩ := Option.map_eq_some_iff.mp he
      cases p with
      | load =>
          simp only [noteNotifiedDeadline] at he'
          split at he' <;> cases he' <;> cases hf'
          · exact fun _ => le_rfl
          · trivial
      | lock =>
          simp only [noteNotifiedDeadline, lockNote] at he'
          split at he' <;> cases he'
          cases hf'
          trivial
      | read =>
          cases he'
          cases hf'
          rintro rfl
          exact hr
      | check x =>
          simp only [noteNotifiedDeadline] at he'
          split at he' <;> cases he' <;> cases hf'
          · trivial
          · exact hf
      | unlock x =>
          cases he'
          cases hf'
          exact hf
      | called => cases he'
      | result x =>
          cases he'
          cases hf'
  | isNotified m p =>
      obtain ⟨e, he', rfl⟩ := Option.map_eq_some_iff.mp he
      cases p <;> cases he' <;> cases hf'
      trivial
  | _ =>
      obtain ⟨q, rfl⟩ := place_of_map he hf'
      trivial

theorem resume_learnt (hr : Returns f v) (hc : c.Calls f.fn) (hf : f.Learnt n) (hcl : c.Learnt n) :
    (c.resume v).Learnt n := by
  cases c with
  | deadline m a p =>
      cases p with
      | called => exact fun _ => le_rfl
      | _ => exact hcl
  | isNotified m p =>
      cases p with
      | called =>
          cases hr with
          | deadline k a x =>
              obtain rfl : k = m := hc
              intro hm
              exact decide_eq_true (hf hm)
          | _ => exact (hc : False).elim
      | _ => exact hcl
  | _ =>
      refine Frame.Learnt.of_fn (fun m a => ?_) fun m => ?_
      all_goals
        rw [resume_fn]
        intro hfn
        cases hfn

/-- The note is known and notified. -/
structure Notified (s : State T τ) (n : ℕ) : Prop where
  known : n < s.notes
  ready : s.Ready (.note n)

theorem Notified.next (hn : Notified s n) (hs : step i s = some s') : Notified s' n := by
  obtain ⟨-, ⟨c, -, -, rfl⟩ | ⟨ch, f, rest, e, -, hst, he, rfl⟩ | ⟨-, rfl⟩ | ⟨x, -, -, rfl⟩⟩ :=
    step_cases hs
  · exact ⟨hn.known, hn.ready⟩
  · refine ⟨?_, notifiedTime_apply_le hn.known hn.ready⟩
    rw [notes_apply]
    exact Nat.lt_add_right _ hn.known
  · exact ⟨hn.known, hn.ready⟩
  · exact ⟨hn.known, hn.ready⟩

theorem Notified.reach (hn : Notified s n) (hr : Reach step Legal s s') : Notified s' n :=
  hr.invariant (I := fun s => Notified s n) hn fun _ _ _ _ hn _ hs => hn.next hs

/-- While the note is notified, a thread learns nothing else. -/
theorem Notified.learnt_next (hn : Notified s n) (h : Safe s)
    (hl : ∀ f ∈ s.stack u, f.Learnt n) (hs : step i s = some s') :
    ∀ f ∈ s'.stack u, f.Learnt n := by
  obtain ⟨-, ⟨c, -, -, rfl⟩ | ⟨ch, f, rest, e, -, hst, he, rfl⟩ | ⟨-, rfl⟩ | ⟨x, -, -, rfl⟩⟩ :=
    step_cases hs
  · intro g hg
    by_cases hu : u = i.1
    · subst hu
      rw [State.setStack_stack_self, List.mem_singleton] at hg
      subst hg
      cases c <;> trivial
    · rw [State.setStack_stack_of_ne _ _ hu] at hg
      exact hl g hg
  · have hf : f ∈ s.stack i.1 := hst ▸ List.mem_cons_self
    intro g hg
    refine forall_frames_apply (P := fun w g => w = u → g.Learnt n) hst ?_ (fun _ _ hP => hP) ?_ ?_
      ?_ u g hg rfl
    · intro w g hg hw
      exact hl g (hw ▸ hg)
    · intro f' hf' hw
      exact place_learnt hn.ready he (hl f (hw ▸ hf)) hf'
    · intro g hg _
      exact (callee_entry he (action_fits he (h.locks.stack.past i.1 f hf)) hg).learnt
    · intro v c l hv hrest hw
      subst hv hrest
      have hcalls : c.Calls f.fn := (hst ▸ h.locks.stack.stack i.1 : StackOk (f :: c :: l)).1
      have hc : c ∈ s.stack i.1 := hst ▸ List.mem_cons_of_mem f List.mem_cons_self
      exact resume_learnt (action_ret he) hcalls (hl f (hw ▸ hf)) (hl c (hw ▸ hc))
  · exact hl
  · exact hl

theorem Notified.learnt (hn : Notified s n) (h : Safe s) (hl : ∀ f ∈ s.stack u, f.Learnt n)
    (hr : Reach step Legal s s') : ∀ f ∈ s'.stack u, f.Learnt n := by
  have hall : Safe s' ∧ Notified s' n ∧ ∀ f ∈ s'.stack u, f.Learnt n :=
    hr.invariant (I := fun s => Safe s ∧ Notified s n ∧ ∀ f ∈ s.stack u, f.Learnt n) ⟨h, hn, hl⟩
      fun _ _ _ _ hI hL hs =>
        ⟨step_safe hs hL hI.1, hI.2.1.next hs, hI.2.1.learnt_next hI.1 hI.2.2 hs⟩
  exact hall.2.2

/-- The call says that the note is notified, or has notified it. -/
def Frame.Announces (n : ℕ) : Frame τ → Prop
  | .isNotified m (.result b) => m = n ∧ b = true
  | .noteNotify m .done => m = n
  | _ => False

theorem Notified.of_announces (h : Safe s) (hi : Informed s) (hf : f ∈ s.stack t)
    (ha : f.Announces n) : Notified s n := by
  have hsound := hi.sound t f hf
  have hids := h.locks.ids.known t f hf
  cases f with
  | isNotified m p =>
      cases p with
      | result b =>
          obtain ⟨rfl, hb⟩ := ha
          exact ⟨hids m List.mem_cons_self, hsound hb⟩
      | _ => exact ha.elim
  | noteNotify m p =>
      cases p with
      | done =>
          obtain rfl : m = n := ha
          exact ⟨hids m List.mem_cons_self, hsound⟩
      | _ => exact ha.elim
  | _ => exact ha.elim

/-- Threads share notes, counters and waits.  When `nsync_note_is_notified` is about to
return true, or `nsync_note_notify` has done its work, a thread that is outside the library
then or later is told by every call of `nsync_note_is_notified` it goes on to make that the
note is notified. -/
theorem note_stays_notified {value : ℕ → Word} {sem : T → ℕ} {now : τ} (htop : (0 : τ) < ⊤)
    (h : Reach step Legal (initial value sem now) s) (hf : f ∈ s.stack t) (ha : f.Announces n)
    {s₁ s₂ : State T τ} (h₁ : Reach step Legal s s₁) (hu : s₁.stack u = [])
    (h₂ : Reach step Legal s₁ s₂) {b : Bool} (hb : .isNotified n (.result b) ∈ s₂.stack u) :
    b = true := by
  have hn : Notified s n := .of_announces (reach_safe h) (reach_informed h htop) hf ha
  refine (hn.reach h₁).learnt (reach_safe (h.trans h₁)) ?_ h₂ _ hb rfl
  intro g hg
  rw [hu] at hg
  cases hg

end

/-- One thread makes a note and notifies it. -/
def announcedRun : List (Bool × Act (WithTop ℕ)) :=
  (true, .call (.noteNew none ⊤)) :: List.replicate 11 (true, .step .run) ++
    (true, .call (.noteNotify 0)) :: List.replicate 22 (true, .step .run)

/-- Another one asks about it. -/
def askingRun : List (Bool × Act (WithTop ℕ)) :=
  (false, .call (.noteIsNotified 0)) :: List.replicate 3 (false, .step .run)

def announced (s : State Bool (WithTop ℕ)) : Bool :=
  decide (s.stack true = [.noteNotify 0 .done] ∧ s.stack false = [])

def answered (s : State Bool (WithTop ℕ)) : Bool :=
  decide (s.stack false = [.isNotified 0 (.result true)])

theorem note_stays_notified_announced : ∃ s s₂ : State Bool (WithTop ℕ), ∃ b,
    Reach step Legal (initial (fun _ => 1#32) (fun _ => 0) 0) s ∧
      s.stack true = [.noteNotify 0 .done] ∧ Reach step Legal s s₂ ∧
      s₂.stack false = [.isNotified 0 (.result b)] ∧ b = true := by
  have hrun : ((exec step legalCheck announcedRun
      (initial (fun _ => 1#32) (fun _ : Bool => 0) (0 : WithTop ℕ))).bind fun s =>
        (exec step legalCheck askingRun s).map fun s₂ => announced s && answered s₂) =
          some true := by
    decide +kernel
  obtain ⟨s, hs, hrest⟩ := Option.bind_eq_some_iff.mp hrun
  obtain ⟨s₂, hs₂, hf⟩ := Option.map_eq_some_iff.mp hrest
  obtain ⟨hsaid, hasked⟩ := Bool.and_eq_true_iff.mp hf
  obtain ⟨htrue, hfalse⟩ := of_decide_eq_true hsaid
  have hstack := of_decide_eq_true hasked
  have htop : (0 : WithTop ℕ) < ⊤ := by decide
  have h : Reach step Legal (initial (fun _ => 1#32) (fun _ => 0) 0) s :=
    .of_exec legal_of_check hs
  have h₂ : Reach step Legal s s₂ := .of_exec legal_of_check hs₂
  refine ⟨s, s₂, true, h, htrue, h₂, hstack, ?_⟩
  exact note_stays_notified (f := .noteNotify 0 .done) (n := 0) htop h
    (htrue ▸ List.mem_cons_self) rfl .start hfalse h₂ (hstack ▸ List.mem_cons_self)

end Nsync.Wait
