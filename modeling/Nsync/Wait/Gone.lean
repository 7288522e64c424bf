import Nsync.Wait.Index

/-!
# Records that nobody touches any more

The records of `nsync_wait_n` and `nsync_sem_wait_with_cancel_` live in the frames of
these calls.  Once a call has left all objects, no step of any thread accesses one of
its records, so that the memory of the frame can be used for something else.
-/

set_option linter.unusedSectionVars false

namespace Nsync.Wait

open Nsync.Lib

variable {T τ : Type}

/-- The operation accesses the record: its flag or its semaphore, or the list that it is
on. -/
def Eff.Touches {P : Type} (s : State T τ) (nw : ℕ) : Eff τ P → Prop
  | .popWaiter n _ => nw ∈ (s.note n).waiters
  | .pushWaiter n x _ | .removeWaiter n x _ _ => x = nw ∨ nw ∈ (s.note n).waiters
  | .popCounter c _ => nw ∈ (s.counter c).waiters
  | .pushCounter c x _ | .removeCounter c x _ => x = nw ∨ nw ∈ (s.counter c).waiters
  | .setWaiting x _ _ | .post x _ => x = nw
  | _ => False

section

variable [DecidableEq T] [LinearOrder τ] [OrderTop τ] [Zero τ]

/-- The record is on no list, and no thread is about to access it. -/
structure Untouched (s : State T τ) (nw : ℕ) : Prop where
  unlisted : ∀ a, nw ∉ s.waiters a
  access : ∀ u ch f rest e, s.stack u = f :: rest → action s u ch f = some e → ¬ e.Touches s nw

/-- No call uses the record any more. -/
structure Gone (s : State T τ) (nw : ℕ) : Prop where
  allocated : nw < s.nws
  unused : ∀ u, nw ∉ recordsBy (s.stack u)

variable {s s' : State T τ} {t u : T} {ch : Choice} {f : Frame τ} {e : Eff τ (Frame τ)}
  {rest : List (Frame τ)} {nw : ℕ} {a : Waitable}

theorem Gone.next {i : T × Act τ} (hg : Gone s nw) (h : Safe s) (hs : step i s = some s') :
    Gone s' nw := by
  obtain ⟨-, ⟨c, -, -, rfl⟩ | ⟨ch, f, rest, e, -, hst, he, rfl⟩ | ⟨-, rfl⟩ | ⟨x, -, -, rfl⟩⟩ :=
    step_cases hs
  · refine ⟨hg.allocated, fun u => ?_⟩
    by_cases hu : u = i.1
    · subst hu
      rw [State.setStack_stack_self, c.records.1]
      exact List.not_mem_nil
    · rw [State.setStack_stack_of_ne _ _ hu]
      exact hg.unused u
  · refine ⟨(sem_apply hg.allocated).1, fun u hnw => ?_⟩
    by_cases hu : u = i.1
    · subst hu
      rw [stack_apply hst] at hnw
      have hsub := (recordsBy_stack (hst ▸ h.locks.stack.stack i.1)
        (h.locals i.1 f (hst ▸ List.mem_cons_self)) he).subset
      rcases List.mem_append.mp (hsub (List.mem_append_right _ hnw)) with hnew | hold
      · exact (le_of_mem_allocates hnew).not_gt hg.allocated
      · exact hg.unused i.1 (hst ▸ hold)
    · rw [stack_apply_ne hu] at hnw
      exact hg.unused u hnw
  · exact ⟨hg.allocated, hg.unused⟩
  · exact ⟨hg.allocated, hg.unused⟩

theorem Gone.reach (hg : Gone s nw) (h : Safe s) (hr : Reach step Legal s s') : Gone s' nw := by
  have hboth : Safe s' ∧ Gone s' nw :=
    hr.invariant (I := fun a => Safe a ∧ Gone a nw) ⟨h, hg⟩
      fun _ _ _ _ ha hl hs => ⟨step_safe hs hl ha.1, ha.2.next ha.1 hs⟩
  exact hboth.2

theorem Gone.not_joined (hg : Gone s nw) : (nw, a) ∉ joinedBy (s.stack u) := fun hj =>
  hg.unused u (List.mem_append_right _ (List.mem_map.mpr ⟨(nw, a), hj, rfl⟩))

theorem Gone.unlisted (hg : Gone s nw) (h : Safe s) (a : Waitable) : nw ∉ s.waiters a := by
  intro hm
  obtain ⟨u, hu⟩ := h.good.listed nw a hm
  exact hg.not_joined hu

theorem Gone.not_waker (hg : Gone s nw) (h : Safe s) (hst : s.stack u = f :: rest) :
    f.waker ≠ .popped a nw ∧ f.waker ≠ .cleared a nw := by
  refine ⟨fun hw => ?_, fun hw => ?_⟩
  · obtain ⟨⟨o, ho⟩, -⟩ := h.good.popped u nw a ((waker_self hst).trans hw)
    exact hg.not_joined ho
  · obtain ⟨⟨o, ho⟩, -⟩ := h.good.cleared u nw a ((waker_self hst).trans hw)
    exact hg.not_joined ho

theorem Gone.not_mem_frame (hg : Gone s nw) (hst : s.stack u = f :: rest) :
    nw ∉ f.pending ∧ ∀ a, (nw, a) ∉ f.joined := by
  refine ⟨fun hp => hg.unused u ?_, fun a hj => hg.not_joined (u := u) (a := a) ?_⟩
  · rw [hst]
    exact List.mem_append_left _ (List.mem_append_left _ hp)
  · rw [hst]
    exact List.mem_append_left _ hj

theorem Gone.untouched (hg : Gone s nw) (h : Safe s) : Untouched s nw := by
  refine ⟨hg.unlisted h, fun u ch f rest e hst he ht => ?_⟩
  have hallow := action_allowed he
  obtain ⟨hpending, hjoined⟩ := hg.not_mem_frame hst
  have hnote : ∀ n, nw ∉ (s.note n).waiters := fun n => hg.unlisted h (.note n)
  have hcounter : ∀ c, nw ∉ (s.counter c).waiters := fun c => hg.unlisted h (.counter c)
  cases e with
  | popWaiter n f' => exact hnote n ht
  | popCounter c f' => exact hcounter c ht
  | pushWaiter n x f' =>
    rcases ht with rfl | ht
    · rcases hallow with rfl | ⟨d, rfl⟩
      · exact hpending List.mem_cons_self
      · exact hpending List.mem_cons_self
    · exact hnote n ht
  | removeWaiter n x b f' =>
    rcases ht with rfl | ht
    · rcases hallow with ⟨y, rfl⟩ | ⟨d, o, y, rfl⟩
      · exact hjoined _ List.mem_cons_self
      · exact hjoined _ List.mem_cons_self
    · exact hnote n ht
  | pushCounter c x f' =>
    rcases ht with rfl | ht
    · have hf : f = .counterEnqueue c x .link := hallow
      subst hf
      exact hpending List.mem_cons_self
    · exact hcounter c ht
  | removeCounter c x f' =>
    rcases ht with rfl | ht
    · have hf : f = .counterDequeue c x .unlink := hallow
      subst hf
      exact hjoined _ List.mem_cons_self
    · exact hcounter c ht
  | setWaiting x b f' =>
    have hx : x = nw := ht
    subst hx
    rcases hallow with ⟨m, q, rfl⟩ | ⟨c, d, old, rfl⟩ | ⟨m, rfl⟩ | ⟨c, rfl⟩
    · exact (hg.not_waker h hst).1 rfl
    · exact (hg.not_waker h hst).1 rfl
    · exact hpending List.mem_cons_self
    · exact hpending List.mem_cons_self
  | post x f' =>
    have hx : x = nw := ht
    subst hx
    rcases hallow with ⟨m, q, rfl⟩ | ⟨c, d, old, rfl⟩
    · exact (hg.not_waker h hst).2 rfl
    · exact (hg.not_waker h hst).2 rfl
  | _ => exact ht

/-- A thread that uses no record has left all its records for good. -/
theorem Safe.gone (h : Safe s) (hnil : recordsBy (s.stack t) = []) (hnw : nw < s.nws)
    (hsem : (s.nw nw).sem = some t) : Gone s nw := by
  refine ⟨hnw, fun u hu => ?_⟩
  have hown := (h.records.owner u nw hu).2
  rw [hsem] at hown
  cases hown
  rw [hnil] at hu
  exact List.not_mem_nil hu

end

end Nsync.Wait
