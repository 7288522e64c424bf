import Nsync.Wait.Board

/-!
# The functions keep the discipline

Every function of the source moves the records of notes and counters as the discipline
of waiting for objects says, so that it holds in all reached states.
-/

set_option linter.unusedSectionVars false

namespace Nsync.Wait

open Nsync.Lib

variable {T τ : Type} [DecidableEq T] [LinearOrder τ] [OrderTop τ] [Zero τ] {s s' : State T τ}
  {t u : T} {ch : Choice} {f f' g c : Frame τ} {e : Eff τ (Frame τ)} {rest l : List (Frame τ)}
  {v : Val τ} {w : WaitN τ} {p : WaitPc τ} {n nw : ℕ} {a : Waitable}

/-! ## Lists after an operation -/

theorem waiters_pop : (apply s t rest (.popWaiter n f')).waiters =
      Function.update s.waiters (.note n) (s.waiters (.note n)).tail ∧
    (apply s t rest (.popCounter n f')).waiters =
      Function.update s.waiters (.counter n) (s.waiters (.counter n)).tail := by
  constructor <;> funext b
  · refine waiters_note (fun m => ?_) (fun k => counter_waiters_apply _ _ _ _ _) b
    rw [waiters_apply]
    split <;> simp_all [State.waiters]
  · refine waiters_counter (fun m => waiters_apply _ _ _ _ _) (fun k => ?_) b
    rw [counter_waiters_apply]
    split <;> simp_all [State.waiters]

theorem waiters_removeWaiter {x : Bool} : (apply s t rest (.removeWaiter n nw x f')).waiters =
    Function.update s.waiters (.note n) ((s.waiters (.note n)).erase nw) := by
  funext b
  refine waiters_note (fun m => ?_) (fun k => counter_waiters_apply _ _ _ _ _) b
  rw [waiters_apply]
  split <;> simp_all [State.waiters]

theorem waiters_removeCounter : (apply s t rest (.removeCounter n nw f')).waiters =
    Function.update s.waiters (.counter n) ((s.waiters (.counter n)).erase nw) := by
  funext b
  refine waiters_counter (fun m => waiters_apply _ _ _ _ _) (fun k => ?_) b
  rw [counter_waiters_apply]
  split <;> simp_all [State.waiters]

/-! ## `note_notify_child` -/

theorem notifyChild_moves {parent : Option ℕ} {p : ChildPc} (h : Safe s)
    (hst : s.stack t = .notifyChild n parent p :: rest)
    (he : action s t ch (.notifyChild n parent p) = some e) :
    (board s).Moves (board (apply s t rest e)) := by
  have hwakes : Wakes s t ch (.notifyChild n parent p) rest e := ⟨hst, he, rfl, rfl⟩
  obtain ⟨e, he', rfl⟩ := Option.map_eq_some_iff.mp he
  cases p with
  | store =>
    cases he'
    have hheld : Holds (s.stack t) (.note n) := by
      rw [hst]
      exact List.mem_append_left _ List.mem_cons_self
    have hnow : (apply s t rest (.setNotified n (.notifyChild n parent .wake))).Ready (.note n) := by
      change ((apply s t rest _).note n).notifiedTime ≤ 0
      unfold Note.notifiedTime
      rw [notified_apply]
      simp
    refine h.moves_rouse (a := .note n) hwakes ?_ rfl (fun b hb => ?_) hnow (fun u b hb => ?_)
      (h.locks.quiet hst rfl hheld) rfl rfl
    · funext b
      cases b with
      | note m => exact waiters_apply _ _ _ _ _
      | counter k => rfl
    · cases b with
      | note m =>
        by_cases hm : m = n
        · subst hm
          exact ⟨fun _ => Or.inl rfl, fun _ => hnow⟩
        · have htime : ((apply s t rest (.setNotified n (.notifyChild n parent .wake))).note
              m).notifiedTime = (s.note m).notifiedTime :=
            notifiedTime_apply (h.awaited_note hb).1 (Ne.symm hm)
          have hne : ¬ Waitable.note m = Waitable.note n := fun heq => hm (Waitable.note.inj heq)
          change ((apply s t rest _).note m).notifiedTime ≤ 0 ↔ _ ∨ (s.note m).notifiedTime ≤ 0
          rw [Eff.map, htime]
          exact ⟨Or.inr, fun hor => hor.resolve_left hne⟩
      | counter k => exact ⟨Or.inr, fun hor => hor.resolve_left (by simp)⟩
    · exact h.ready_waking (fun _ _ _ heq => by cases heq) hb
  | wake =>
    cases hlist : (s.note n).waiters with
    | cons nw l =>
      simp only [noteNotifyChild, hlist] at he'
      cases he'
      exact h.moves_pop (a := .note n) hwakes trivial waiters_pop.1 rfl
        (by simp [State.waiters, hlist]) rfl rfl
    | nil =>
      simp only [noteNotifyChild, hlist] at he'
      cases he'
      exact h.moves_finish (a := .note n) hwakes hlist rfl rfl
  | clear nw =>
    cases he'
    exact h.moves_clear (a := .note n) hwakes rfl rfl
  | post nw =>
    cases he'
    exact h.moves_post (a := .note n) hwakes rfl rfl
  | _ =>
    simp only [noteNotifyChild, lockNote] at he'
    refine h.moves_plain hst he ?_ rfl rfl rfl ?_
    · (repeat' split at he') <;> cases he' <;> trivial
    · intro f' hf'
      (repeat' split at he') <;> cases he' <;> cases hf' <;> rfl

/-! ## `nsync_counter_add` -/

theorem value_setValue {k : ℕ} {x : Word} : ((apply s t rest (.setValue n x f')).counter k).value =
    if k = n then x else (s.counter k).value :=
  value_apply _ _ _ _ _

theorem waiters_setValue {x : Word} : (apply s t rest (.setValue n x f')).waiters = s.waiters := by
  funext b
  cases b with
  | note m => rfl
  | counter k => exact counter_waiters_apply _ _ _ _ _

/-- The add changes the value of a counter that nobody wakes. -/
theorem setValue_moves {d old : Word} (h : Safe s)
    (hst : s.stack t = .counterAdd n d (.cas old) :: rest)
    (he : action s t ch (.counterAdd n d (.cas old)) =
      some (.setValue n (old + d) (.counterAdd n d (.check old))))
    (hold : (s.counter n).value = old)
    (hcalm : assertsHold d (old + d) (s.counter n).waited = true) :
    (board s).Moves
      (board (apply s t rest (.setValue n (old + d) (.counterAdd n d (.check old))))) := by
  have hwakes : Wakes s t ch (.counterAdd n d (.cas old)) rest
      (.setValue n (old + d) (.counterAdd n d (.check old))) := ⟨hst, he, rfl, rfl⟩
  have hheld : Holds (s.stack t) (.counter n) := by
    rw [hst]
    exact List.mem_append_left _ List.mem_cons_self
  have hq : (board s).Quiet (.counter n) := h.locks.quiet hst rfl hheld
  -- The objects other than the counter are as ready as before.
  have hother : ∀ b, b ≠ .counter n →
      ((apply s t rest (.setValue n (old + d) (.counterAdd n d (.check old)))).Ready b ↔
        s.Ready b) := by
    intro b hb
    cases b with
    | note m => exact Iff.rfl
    | counter k =>
      have hk : k ≠ n := fun heq => hb (congrArg Waitable.counter heq)
      change ((apply s t rest _).counter k).value = 0#32 ↔ _
      rw [value_setValue, if_neg hk]
      exact Iff.rfl
  have hwaking : ∀ u b, ((board s).waker u).on = some b → b ≠ .counter n := by
    rintro u b hb rfl
    exact hq u hb
  by_cases hz : old + d = 0#32
  · have hready : (apply s t rest
        (.setValue n (old + d) (.counterAdd n d (.check old)))).Ready (.counter n) := by
      change ((apply s t rest _).counter n).value = 0#32
      rw [value_setValue, if_pos rfl, hz]
    refine h.moves_rouse (a := .counter n) hwakes waiters_setValue rfl (fun b hb => ?_) hready
      (fun u b hb => (hother b (hwaking u b hb)).mpr (h.good.ready u b hb)) hq rfl ?_
    · by_cases hbn : b = .counter n
      · subst hbn
        exact ⟨fun _ => Or.inl rfl, fun _ => hready⟩
      · rw [hother b hbn]
        exact ⟨Or.inr, fun hor => hor.resolve_left hbn⟩
    · simp [Eff.stack, Eff.callee, Eff.place, wakerOf, Frame.waker, hz]
  · have hwaker : wakerOf (Eff.stack (.counterAdd n d (.cas old)) rest
        (.setValue n (old + d) (.counterAdd n d (.check old)))) = (board s).waker t := by
      rw [waker_self hst]
      simp [Eff.stack, Eff.callee, Eff.place, wakerOf, Frame.waker, hz]
    refine Board.Move.still.moves ⟨congrFun waiters_setValue, fun u x b hj => ?_, fun u b hb => ?_,
      h.joined_still hst he rfl rfl, fun u => ?_, fun _ _ _ _ => rfl, fun _ _ _ _ => rfl⟩
    · by_cases hbn : b = .counter n
      · subst hbn
        have hne : old ≠ 0#32 := by
          rintro rfl
          rw [h.joined_counter hj, assertsHold_zero] at hcalm
          cases hcalm
        change ((apply s t rest _).counter n).value = 0#32 ↔ (s.counter n).value = 0#32
        rw [value_setValue, if_pos rfl, hold]
        exact iff_of_false hz hne
      · exact hother b hbn
    · exact (hother b (hwaking u b hb)).mpr (h.good.ready u b hb)
    · have := waker_apply hst hwaker u
      rwa [Function.update_eq_self] at this

theorem counterAdd_moves {d : Word} {p : AddPc} (h : Safe s)
    (hst : s.stack t = .counterAdd n d p :: rest)
    (he : action s t ch (.counterAdd n d p) = some e)
    (hcalm : ∀ old, p = .cas old → (s.counter n).value = old →
      assertsHold d (old + d) (s.counter n).waited = true) :
    (board s).Moves (board (apply s t rest e)) := by
  have hwakes : Wakes s t ch (.counterAdd n d p) rest e := ⟨hst, he, rfl, rfl⟩
  obtain ⟨e, he', rfl⟩ := Option.map_eq_some_iff.mp he
  cases p with
  | cas old =>
    by_cases hold : (s.counter n).value = old
    · simp only [counterAdd, hold, if_true] at he'
      cases he'
      exact setValue_moves h hst he hold (hcalm old rfl hold)
    · simp only [counterAdd, hold, if_false] at he'
      cases he'
      exact h.moves_still hst he trivial rfl rfl rfl
  | check old =>
    refine h.moves_still hst he ?_ rfl rfl ?_
    · simp only [counterAdd] at he'
      split at he' <;> cases he' <;> trivial
    · simp only [counterAdd] at he'
      split at he'
      · cases he'
        by_cases hz : old + d = 0#32 <;>
          simp [Eff.map, Eff.stack, Eff.callee, Eff.place, wakerOf, Frame.waker, hz]
      · cases he'
        rfl
  | wake old =>
    cases hlist : (s.counter n).waiters with
    | cons nw l =>
      simp only [counterAdd, hlist] at he'
      cases he'
      exact h.moves_pop (a := .counter n) hwakes trivial waiters_pop.2 rfl
        (by simp [State.waiters, hlist]) rfl rfl
    | nil =>
      simp only [counterAdd, hlist] at he'
      cases he'
      exact h.moves_finish (a := .counter n) hwakes hlist rfl rfl
  | clear old nw =>
    cases he'
    exact h.moves_clear (a := .counter n) hwakes rfl rfl
  | post old nw =>
    cases he'
    exact h.moves_post (a := .counter n) hwakes rfl rfl
  | _ =>
    simp only [counterAdd, lockCounterMu] at he'
    refine h.moves_plain hst he ?_ rfl rfl rfl ?_
    · (repeat' split at he') <;> cases he' <;> trivial
    · intro f' hf'
      (repeat' split at he') <;> cases he' <;> cases hf' <;> rfl

/-! ## Joining and leaving -/

theorem noteEnqueue_moves {p : EnqueuePc} (h : Safe s)
    (hst : s.stack t = .noteEnqueue n nw p :: rest)
    (he : action s t ch (.noteEnqueue n nw p) = some e) :
    (board s).Moves (board (apply s t rest e)) := by
  obtain ⟨e, he', rfl⟩ := Option.map_eq_some_iff.mp he
  cases p with
  | link =>
    have ha : Awaited s (.note n) := ⟨t, _, hst ▸ List.mem_cons_self, List.mem_cons_self⟩
    by_cases hr : 0 < (s.note n).notifiedTime
    · simp only [noteEnqueue, hr, if_true] at he'
      cases he'
      refine h.moves_push (a := .note n) ⟨hst, he, trivial, ha, rfl, rfl⟩ waiters_push.1 (fun x => ?_)
        (not_le.mpr hr) List.mem_cons_self rfl rfl
      exact nw_apply _ _ _ _ _
    · simp only [noteEnqueue, hr, if_false] at he'
      cases he'
      refine h.moves_pass (a := .note n) ⟨hst, he, trivial, ha, rfl, rfl⟩ ?_ (fun x => ?_)
        (not_lt.mp hr) List.mem_cons_self rfl rfl
      · funext b
        cases b <;> rfl
      · exact nw_apply _ _ _ _ _
  | _ =>
    simp only [noteEnqueue, lockNote] at he'
    refine h.moves_plain hst he ?_ rfl rfl rfl ?_
    · (repeat' split at he') <;> cases he'
      all_goals trivial
    · intro f' hf'
      (repeat' split at he') <;> cases he'
      all_goals cases hf'
      all_goals rfl

theorem counterEnqueue_moves {p : EnqueuePc} (h : Safe s)
    (hst : s.stack t = .counterEnqueue n nw p :: rest)
    (he : action s t ch (.counterEnqueue n nw p) = some e) :
    (board s).Moves (board (apply s t rest e)) := by
  obtain ⟨e, he', rfl⟩ := Option.map_eq_some_iff.mp he
  cases p with
  | link =>
    by_cases hr : (s.counter n).value = 0#32
    · simp only [counterEnqueue, hr, ne_eq, not_true_eq_false, if_false] at he'
      cases he'
      refine h.moves_pass (a := .counter n) ⟨hst, he, trivial, trivial, rfl, rfl⟩ ?_ (fun x => ?_)
        hr List.mem_cons_self rfl rfl
      · funext b
        cases b <;> rfl
      · exact nw_apply _ _ _ _ _
    · simp only [counterEnqueue, hr, ne_eq, not_false_eq_true, if_true] at he'
      cases he'
      refine h.moves_push (a := .counter n) ⟨hst, he, trivial, trivial, rfl, rfl⟩ waiters_push.2
        (fun x => ?_) hr List.mem_cons_self rfl rfl
      exact nw_apply _ _ _ _ _
  | _ =>
    simp only [counterEnqueue, lockCounterMu] at he'
    refine h.moves_plain hst he ?_ rfl rfl rfl ?_
    · (repeat' split at he') <;> cases he'
      all_goals trivial
    · intro f' hf'
      (repeat' split at he') <;> cases he'
      all_goals cases hf'
      all_goals rfl

/-- An object whose mutex the thread has is ready only with an empty list. -/
theorem Safe.erase_of_ready (h : Safe s) (hq : (board s).Quiet a) (hr : s.Ready a) (x : ℕ) :
    s.waiters = Function.update s.waiters a ((s.waiters a).erase x) := by
  have hnil : s.waiters a = [] := h.good.drained a hr hq
  rw [hnil, List.erase_nil, ← hnil, Function.update_eq_self]

theorem erase_of_not_mem (hx : nw ∉ s.waiters a) :
    s.waiters = Function.update s.waiters a ((s.waiters a).erase nw) := by
  rw [List.erase_of_not_mem hx, Function.update_eq_self]

theorem setWaiting_self (x : ℕ) :
    s.nw x = if x = nw then { s.nw x with waiting := (s.nw nw).waiting } else s.nw x := by
  split
  · next hx =>
    subst hx
    rfl
  · rfl

theorem noteDequeue_moves {b : τ} {p : DequeuePc} (h : Safe s)
    (hst : s.stack t = .noteDequeue n nw b p :: rest)
    (he : action s t ch (.noteDequeue n nw b p) = some e) :
    (board s).Moves (board (apply s t rest e)) := by
  obtain ⟨e, he', rfl⟩ := Option.map_eq_some_iff.mp he
  cases p with
  | unlink =>
    have ha : Awaited s (.note n) := ⟨t, _, hst ▸ List.mem_cons_self, List.mem_cons_self⟩
    have hheld : Holds (s.stack t) (.note n) := by
      rw [hst]
      exact List.mem_append_left _ List.mem_cons_self
    have hq : (board s).Quiet (.note n) := h.locks.quiet hst rfl hheld
    by_cases hr : 0 < (s.note n).notifiedTime
    · simp only [noteDequeue, hr, if_true] at he'
      cases he'
      refine h.moves_leave (a := .note n) (b := false) ⟨hst, he, trivial, ha, rfl, rfl⟩
        waiters_removeWaiter (fun x => ?_) hq rfl rfl
      exact nw_apply _ _ _ _ _
    · simp only [noteDequeue, hr, if_false] at he'
      cases he'
      refine h.moves_leave (a := .note n) ⟨hst, he, trivial, ha, rfl, rfl⟩ ?_
        setWaiting_self hq rfl rfl
      exact h.erase_of_ready hq (not_lt.mp hr) nw
  | _ =>
    simp only [noteDequeue, lockNote] at he'
    refine h.moves_plain hst he ?_ rfl rfl rfl ?_
    · (repeat' split at he') <;> cases he'
      all_goals trivial
    · intro f' hf'
      (repeat' split at he') <;> cases he' <;> cases hf'
      all_goals rfl

theorem counterDequeue_moves {p : DequeuePc} (h : Safe s)
    (hst : s.stack t = .counterDequeue n nw p :: rest)
    (he : action s t ch (.counterDequeue n nw p) = some e) :
    (board s).Moves (board (apply s t rest e)) := by
  obtain ⟨e, he', rfl⟩ := Option.map_eq_some_iff.mp he
  cases p with
  | unlink =>
    have hheld : Holds (s.stack t) (.counter n) := by
      rw [hst]
      exact List.mem_append_left _ List.mem_cons_self
    have hq : (board s).Quiet (.counter n) := h.locks.quiet hst rfl hheld
    by_cases hw : (s.nw nw).waiting = true
    · simp only [counterDequeue, hw, if_true] at he'
      cases he'
      refine h.moves_leave (a := .counter n) (b := false) ⟨hst, he, trivial, trivial, rfl, rfl⟩
        waiters_removeCounter (fun x => ?_) hq rfl rfl
      exact nw_apply _ _ _ _ _
    · simp only [counterDequeue, hw] at he'
      cases he'
      refine h.moves_leave (a := .counter n) ⟨hst, he, trivial, trivial, rfl, rfl⟩ ?_
        setWaiting_self hq rfl rfl
      -- A record whose flag is clear is not on the list.
      exact erase_of_not_mem fun hm => hw (h.good.queued nw (.counter n) hm).1
  | _ =>
    simp only [counterDequeue, lockCounterMu] at he'
    refine h.moves_plain hst he ?_ rfl rfl rfl ?_
    · (repeat' split at he') <;> cases he'
      all_goals trivial
    · intro f' hf'
      (repeat' split at he') <;> cases he' <;> cases hf'
      all_goals rfl

theorem semWait_moves {d : τ} {cancel : Option ℕ} {p : SemPc τ} (h : Safe s)
    (hst : s.stack t = .semWait d cancel p :: rest)
    (he : action s t ch (.semWait d cancel p) = some e) :
    (board s).Moves (board (apply s t rest e)) := by
  obtain ⟨e, he', rfl⟩ := Option.map_eq_some_iff.mp he
  cases cancel with
  | none =>
    cases p <;>
      simp only [semWaitWithCancel, semaphoreP, Option.bind_none, Option.map_none] at he' <;>
      (repeat' split at he') <;> cases he' <;>
      exact h.moves_plain hst he trivial rfl rfl rfl fun f' hf' => by cases hf' <;> rfl
  | some n =>
    have ha : Awaited s (.note n) := ⟨t, _, hst ▸ List.mem_cons_self, List.mem_cons_self⟩
    cases p with
    | link nw =>
      by_cases hr : 0 < (s.note n).notifiedTime
      · simp only [semWaitWithCancel, Option.map_some, hr, if_true] at he'
        cases he'
        have hp : nw ∈ (Frame.semWait d (some n) (.link nw)).pending := List.mem_cons_self
        refine h.moves_push (a := .note n) ⟨hst, he, trivial, ha, ?_, rfl⟩ waiters_push.1
          (fun x => ?_) (not_le.mpr hr) hp rfl rfl
        · rfl
        · exact nw_apply _ _ _ _ _
      · simp only [semWaitWithCancel, Option.map_some, hr, if_false] at he'
        cases he'
        exact h.moves_plain hst he trivial rfl rfl rfl fun f' hf' => by cases hf'; rfl
    | unlink nw o x =>
      have hheld : Holds (s.stack t) (.note n) := by
        rw [hst]
        exact List.mem_append_left _ List.mem_cons_self
      have hq : (board s).Quiet (.note n) := h.locks.quiet hst rfl hheld
      by_cases hr : 0 < (s.note n).notifiedTime
      · simp only [semWaitWithCancel, Option.map_some, hr, if_true] at he'
        cases he'
        refine h.moves_leave (a := .note n) (b := (s.nw nw).waiting)
          ⟨hst, he, trivial, ha, rfl, rfl⟩ waiters_removeWaiter (fun x => ?_) hq rfl rfl
        exact nw_apply _ _ _ _ _
      · simp only [semWaitWithCancel, Option.map_some, hr, if_false] at he'
        cases he'
        refine h.moves_leave (a := .note n) ⟨hst, he, trivial, ha, rfl, rfl⟩ ?_
          setWaiting_self hq rfl rfl
        exact h.erase_of_ready hq (not_lt.mp hr) nw
    | _ =>
      simp only [semWaitWithCancel, lockNote, semaphoreP, Option.bind_some, Option.map_some] at he'
      (repeat' split at he') <;> cases he' <;>
        exact h.moves_plain hst he trivial rfl rfl rfl fun f' hf' => by cases hf' <;> rfl

/-! ## Whole runs -/

theorem action_moves (h : Safe s) (hst : s.stack t = f :: rest) (he : action s t ch f = some e)
    (hcalm : ∀ c d old, f = .counterAdd c d (.cas old) → (s.counter c).value = old →
      assertsHold d (old + d) (s.counter c).waited = true) :
    (board s).Moves (board (apply s t rest e)) := by
  have hallow := action_allowed he
  cases f with
  | notifyChild n parent p => exact notifyChild_moves h hst he
  | counterAdd c d p =>
    exact counterAdd_moves h hst he fun old hp => hcalm c d old (by rw [hp])
  | noteEnqueue n nw p => exact noteEnqueue_moves h hst he
  | counterEnqueue c nw p => exact counterEnqueue_moves h hst he
  | noteDequeue n nw a p => exact noteDequeue_moves h hst he
  | counterDequeue c nw p => exact counterDequeue_moves h hst he
  | semWait d cancel p => exact semWait_moves h hst he
  | _ =>
    have hstill : e.Still := by
      cases e <;> first | trivial | simp [Eff.Allowed] at hallow
    refine h.moves_plain hst he hstill rfl rfl rfl fun f' hf' => ?_
    obtain ⟨q, rfl⟩ := place_of_map he hf'
    rfl

theorem Call.unjoined (c : Call τ) : joinedBy [c.frame] = [] ∧ wakerOf [c.frame] = .idle := by
  cases c with
  | semWaitWithCancel d cancel => cases cancel <;> exact ⟨rfl, rfl⟩
  | _ => exact ⟨rfl, rfl⟩

/-- A step moves the records as the discipline says. -/
theorem step_moves {i : T × Act τ} (hs : step i s = some s') (hc : Calm i s) (h : Safe s) :
    (board s).Moves (board s') := by
  obtain ⟨-, ⟨c, -, hnil, rfl⟩ | ⟨ch, f, rest, e, hi, hst, he, rfl⟩ | ⟨-, rfl⟩ | ⟨x, -, -, rfl⟩⟩ :=
    step_cases hs
  · have hjoined : ∀ u, joinedBy ((s.setStack i.1 [c.frame]).stack u) = joinedBy (s.stack u) := by
      intro u
      by_cases hu : u = i.1
      · subst hu
        rw [State.setStack_stack_self, hnil, c.unjoined.1]
        rfl
      · rw [State.setStack_stack_of_ne _ _ hu]
    have hwaker : ∀ u, wakerOf ((s.setStack i.1 [c.frame]).stack u) = wakerOf (s.stack u) := by
      intro u
      by_cases hu : u = i.1
      · subst hu
        rw [State.setStack_stack_self, hnil, c.unjoined.2]
        rfl
      · rw [State.setStack_stack_of_ne _ _ hu]
    refine Board.Move.still.moves ⟨fun a => ?_, fun u nw a _ => ?_, fun u a ha => ?_, fun u => ?_,
      hwaker,
      fun _ _ _ _ => rfl, fun _ _ _ _ => rfl⟩
    · cases a <;> rfl
    · cases a <;> exact Iff.rfl
    · have := h.good.ready u a ha
      cases a <;> exact this
    · exact List.Perm.of_eq (hjoined u)
  · refine action_moves h hst he fun c d old hf hv => ?_
    rw [Calm, hi, hst, hf] at hc
    exact hc hv
  · refine Board.Move.still.moves ⟨fun a => ?_, fun u nw a _ => ?_, fun u a ha => ?_, fun u => .refl _,
      fun _ => rfl, fun _ _ _ _ => rfl, fun _ _ _ _ => rfl⟩
    · cases a <;> rfl
    · cases a <;> exact Iff.rfl
    · have := h.good.ready u a ha
      cases a <;> exact this
  · refine Board.Move.still.moves ⟨fun a => ?_, fun u nw a _ => ?_, fun u a ha => ?_, fun u => .refl _,
      fun _ => rfl, fun _ _ _ _ => rfl, fun _ _ _ _ => rfl⟩
    · cases a <;> rfl
    · cases a <;> exact Iff.rfl
    · have := h.good.ready u a ha
      cases a <;> exact this

/-- Clients keep to the rules of notes and counters. -/
def Legal (i : T × Act τ) (s : State T τ) : Prop := Proper i s ∧ Calm i s

theorem step_safe {i : T × Act τ} (hs : step i s = some s') (hl : Legal i s) (h : Safe s) :
    Safe s' where
  locks := step_locksOk h.locks hl.1.known hs
  locals := step_localsOk hs h.locks.stack h.locals
  records := step_recordsOk hs h.locks.stack h.locals h.records
  waited := step_waitedOk hs h.locks.stack h.locals h.waited
  hidden := step_hidden hs hl.1 h.locks.ids h.locks.stack h.hidden
  priv := step_private hs hl.1 h.locks.ids h.locks.stack h.hidden h.priv
  good := h.good.moves (step_moves hs hl.2 h)

theorem good_initial (value : ℕ → Word) (sem : T → ℕ) (now : τ) :
    (board (initial value sem now)).Good := by
  have hlist : ∀ a, (board (initial value sem now)).list a = [] := fun a => by cases a <;> rfl
  have hjoin : ∀ t nw a, (nw, a) ∉ (board (initial value sem now)).joined t :=
    fun _ _ _ => List.not_mem_nil
  have hmem : ∀ nw a, nw ∉ (board (initial value sem now)).list a := by
    intro nw a hm
    rw [hlist a] at hm
    exact List.not_mem_nil hm
  constructor
  · intro t u nw a b hj
    exact absurd hj (hjoin t nw a)
  · exact fun _ => List.nodup_nil
  · intro nw a hm
    exact absurd hm (hmem nw a)
  · intro a
    rw [hlist a]
    exact List.nodup_nil
  · intro t nw a hj
    exact absurd hj (hjoin t nw a)
  · intro a _ _
    exact hlist a
  · intro t a hw
    cases hw
  · intro t u a hw
    cases hw
  · intro nw a hm
    exact absurd hm (hmem nw a)
  · intro t nw a hw
    cases hw
  · intro t nw a hw
    cases hw
  · intro t nw a hj
    exact absurd hj (hjoin t nw a)

theorem safe_initial (value : ℕ → Word) (sem : T → ℕ) (now : τ) :
    Safe (initial value sem now) where
  locks := locksOk_initial value sem now
  locals := fun _ _ hf => absurd hf List.not_mem_nil
  records := recordsOk_initial value sem now
  waited := fun _ _ hf => absurd hf List.not_mem_nil
  hidden := fun _ _ hf => absurd hf List.not_mem_nil
  priv := fun _ _ hf => absurd hf List.not_mem_nil
  good := good_initial value sem now

theorem reach_safe {value : ℕ → Word} {sem : T → ℕ} {now : τ}
    (h : Reach step Legal (initial value sem now) s) : Safe s :=
  h.invariant (safe_initial value sem now) fun _ _ _ _ hs hl hstep => step_safe hstep hl hs

end Nsync.Wait
