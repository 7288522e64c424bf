import Nsync.Wait.Step

/-!
# What the operations do to each field

One equation for each field of the state that more than one function changes.
-/

set_option linter.unusedSectionVars false

namespace Nsync.Wait

variable {T τ : Type} [DecidableEq T] [LinearOrder τ] [OrderTop τ] [Zero τ]

namespace State

variable (s : State T τ) (n m : ℕ) (t : T) (l : List (Frame τ)) (x : Note T τ) (y : Counter T)
  (z : Nw T)

@[simp] theorem setNote_note : (s.setNote n x).note m = if m = n then x else s.note m := by
  simp [setNote, Function.update_apply]

@[simp] theorem setCounter_note : (s.setCounter n y).note = s.note := rfl

@[simp] theorem setNw_note : (s.setNw n z).note = s.note := rfl

@[simp] theorem setStack_note : (s.setStack t l).note = s.note := rfl

@[simp] theorem setNote_counter : (s.setNote n x).counter = s.counter := rfl

@[simp] theorem setCounter_counter :
    (s.setCounter n y).counter m = if m = n then y else s.counter m := by
  simp [setCounter, Function.update_apply]

@[simp] theorem setNw_counter : (s.setNw n z).counter = s.counter := rfl

@[simp] theorem setStack_counter : (s.setStack t l).counter = s.counter := rfl

@[simp] theorem setNote_nw : (s.setNote n x).nw = s.nw := rfl

@[simp] theorem setCounter_nw : (s.setCounter n y).nw = s.nw := rfl

@[simp] theorem setNw_nw : (s.setNw n z).nw m = if m = n then z else s.nw m := by
  simp [setNw, Function.update_apply]

@[simp] theorem setStack_nw : (s.setStack t l).nw = s.nw := rfl

@[simp] theorem setNote_nws : (s.setNote n x).nws = s.nws := rfl

@[simp] theorem setCounter_nws : (s.setCounter n y).nws = s.nws := rfl

@[simp] theorem setNw_nws : (s.setNw n z).nws = s.nws := rfl

@[simp] theorem setStack_nws : (s.setStack t l).nws = s.nws := rfl

end State

variable (s : State T τ) (t : T) (rest : List (Frame τ)) (e : Eff τ (Frame τ)) (m : ℕ)

/-! ## Notes -/

theorem noteMu_apply :
    ((apply s t rest e).note m).noteMu = match e with
      | .lock n _ => if m = n then some t else (s.note m).noteMu
      | .unlock n _ => if m = n then none else (s.note m).noteMu
      | .malloc _ _ => if m = s.notes then none else (s.note m).noteMu
      | _ => (s.note m).noteMu := by
  cases e with
  | adopt n c p f =>
      cases p <;> simp only [apply, State.setNote_note, State.setStack_note] <;> split_ifs <;>
        simp_all
  | link n p x f =>
      simp only [apply]
      split <;> simp only [State.setNote_note, State.setStack_note] <;> split_ifs <;> simp_all
  | _ =>
      simp only [apply, State.setNote_note, State.setStack_note, State.setNw_note,
        State.setCounter_note] <;> split_ifs <;> simp_all

theorem notified_apply :
    ((apply s t rest e).note m).notified = match e with
      | .setNotified n _ => if m = n then true else (s.note m).notified
      | .malloc _ _ => if m = s.notes then false else (s.note m).notified
      | _ => (s.note m).notified := by
  cases e with
  | adopt n c p f =>
      cases p <;> simp only [apply, State.setNote_note, State.setStack_note] <;> split_ifs <;>
        simp_all
  | link n p x f =>
      simp only [apply]
      split <;> simp only [State.setNote_note, State.setStack_note] <;> split_ifs <;> simp_all
  | _ =>
      simp only [apply, State.setNote_note, State.setStack_note, State.setNw_note,
        State.setCounter_note] <;> split_ifs <;> simp_all

theorem expiryTimeValid_apply :
    ((apply s t rest e).note m).expiryTimeValid = match e with
      | .malloc _ _ => if m = s.notes then true else (s.note m).expiryTimeValid
      | _ => (s.note m).expiryTimeValid := by
  cases e with
  | adopt n c p f =>
      cases p <;> simp only [apply, State.setNote_note, State.setStack_note] <;> split_ifs <;>
        simp_all
  | link n p x f =>
      simp only [apply]
      split <;> simp only [State.setNote_note, State.setStack_note] <;> split_ifs <;> simp_all
  | _ =>
      simp only [apply, State.setNote_note, State.setStack_note, State.setNw_note,
        State.setCounter_note] <;> split_ifs <;> simp_all

theorem expiryTime_apply :
    ((apply s t rest e).note m).expiryTime = match e with
      | .malloc d _ => if m = s.notes then d else (s.note m).expiryTime
      | .link n _ x _ =>
          if m = n ∧ x < (s.note n).expiryTime then x else (s.note m).expiryTime
      | _ => (s.note m).expiryTime := by
  cases e with
  | adopt n c p f =>
      cases p <;> simp only [apply, State.setNote_note, State.setStack_note] <;> split_ifs <;>
        simp_all
  | link n p x f =>
      simp only [apply]
      split <;> simp only [State.setNote_note, State.setStack_note] <;> split_ifs <;> simp_all
  | _ =>
      simp only [apply, State.setNote_note, State.setStack_note, State.setNw_note,
        State.setCounter_note] <;> split_ifs <;> simp_all

theorem parent_apply :
    ((apply s t rest e).note m).parent = match e with
      | .detach n _ _ => if m = n then none else (s.note m).parent
      | .adopt _ c p _ => if m = c then p else (s.note m).parent
      | .malloc _ _ => if m = s.notes then none else (s.note m).parent
      | .link n p x _ => if m = n ∧ m ≠ p ∧ 0 < x then some p else (s.note m).parent
      | _ => (s.note m).parent := by
  cases e with
  | adopt n c p f =>
      cases p <;> simp only [apply, State.setNote_note, State.setStack_note] <;> split_ifs <;>
        simp_all
  | link n p x f =>
      simp only [apply]
      split <;> simp only [State.setNote_note, State.setStack_note] <;> split_ifs <;> simp_all <;> grind
  | _ =>
      simp only [apply, State.setNote_note, State.setStack_note, State.setNw_note,
        State.setCounter_note] <;> split_ifs <;> simp_all

theorem children_apply :
    ((apply s t rest e).note m).children = match e with
      | .detach n p _ =>
          if m = p then (s.note m).children.erase n else (s.note m).children
      | .adopt n c p _ =>
          (if m = n then (s.note m).children.erase c else (s.note m).children) ++
            if p = some m then [c] else []
      | .malloc _ _ => if m = s.notes then [] else (s.note m).children
      | .link n p x _ => if m = p ∧ 0 < x then (s.note m).children ++ [n] else (s.note m).children
      | _ => (s.note m).children := by
  cases e with
  | adopt n c p f =>
      cases p <;> simp only [apply, State.setNote_note, State.setStack_note] <;> split_ifs <;>
        simp_all
  | link n p x f =>
      simp only [apply]
      split <;> simp only [State.setNote_note, State.setStack_note] <;> split_ifs <;> simp_all
  | _ =>
      simp only [apply, State.setNote_note, State.setStack_note, State.setNw_note,
        State.setCounter_note] <;> split_ifs <;> simp_all

theorem waiters_apply :
    ((apply s t rest e).note m).waiters = match e with
      | .popWaiter n _ => if m = n then (s.note m).waiters.tail else (s.note m).waiters
      | .pushWaiter n nw _ => if m = n then (s.note m).waiters ++ [nw] else (s.note m).waiters
      | .removeWaiter n nw _ _ =>
          if m = n then (s.note m).waiters.erase nw else (s.note m).waiters
      | .malloc _ _ => if m = s.notes then [] else (s.note m).waiters
      | _ => (s.note m).waiters := by
  cases e with
  | adopt n c p f =>
      cases p <;> simp only [apply, State.setNote_note, State.setStack_note] <;> split_ifs <;>
        simp_all
  | link n p x f =>
      simp only [apply]
      split <;> simp only [State.setNote_note, State.setStack_note] <;> split_ifs <;> simp_all
  | _ =>
      simp only [apply, State.setNote_note, State.setStack_note, State.setNw_note,
        State.setCounter_note] <;> split_ifs <;> simp_all

theorem disconnecting_apply :
    ((apply s t rest e).note m).disconnecting = match e with
      | .incr n _ => if m = n then (s.note m).disconnecting + 1 else (s.note m).disconnecting
      | .decr n _ => if m = n then (s.note m).disconnecting - 1 else (s.note m).disconnecting
      | .malloc _ _ => if m = s.notes then 0 else (s.note m).disconnecting
      | _ => (s.note m).disconnecting := by
  cases e with
  | adopt n c p f =>
      cases p <;> simp only [apply, State.setNote_note, State.setStack_note] <;> split_ifs <;>
        simp_all
  | link n p x f =>
      simp only [apply]
      split <;> simp only [State.setNote_note, State.setStack_note] <;> split_ifs <;> simp_all
  | _ =>
      simp only [apply, State.setNote_note, State.setStack_note, State.setNw_note,
        State.setCounter_note] <;> split_ifs <;> simp_all

theorem freed_apply :
    ((apply s t rest e).note m).freed = match e with
      | .free n _ => if m = n then true else (s.note m).freed
      | .malloc _ _ => if m = s.notes then false else (s.note m).freed
      | _ => (s.note m).freed := by
  cases e with
  | adopt n c p f =>
      cases p <;> simp only [apply, State.setNote_note, State.setStack_note] <;> split_ifs <;>
        simp_all
  | link n p x f =>
      simp only [apply]
      split <;> simp only [State.setNote_note, State.setStack_note] <;> split_ifs <;> simp_all
  | _ =>
      simp only [apply, State.setNote_note, State.setStack_note, State.setNw_note,
        State.setCounter_note] <;> split_ifs <;> simp_all

/-! ## Counters -/

theorem counterMu_apply :
    ((apply s t rest e).counter m).counterMu = match e with
      | .lockCounter c _ => if m = c then some t else (s.counter m).counterMu
      | .unlockCounter c _ => if m = c then none else (s.counter m).counterMu
      | _ => (s.counter m).counterMu := by
  cases e with
  | adopt n c p f => cases p <;> rfl
  | link n p x f =>
      simp only [apply]
      split <;> rfl
  | _ =>
      simp only [apply, State.setCounter_counter, State.setStack_counter, State.setNw_counter,
        State.setNote_counter] <;> split_ifs <;> simp_all

theorem waited_apply :
    ((apply s t rest e).counter m).waited = match e with
      | .setWaited c _ => if m = c then true else (s.counter m).waited
      | _ => (s.counter m).waited := by
  cases e with
  | adopt n c p f => cases p <;> rfl
  | link n p x f =>
      simp only [apply]
      split <;> rfl
  | _ =>
      simp only [apply, State.setCounter_counter, State.setStack_counter, State.setNw_counter,
        State.setNote_counter] <;> split_ifs <;> simp_all

theorem value_apply :
    ((apply s t rest e).counter m).value = match e with
      | .setValue c v _ => if m = c then v else (s.counter m).value
      | _ => (s.counter m).value := by
  cases e with
  | adopt n c p f => cases p <;> rfl
  | link n p x f =>
      simp only [apply]
      split <;> rfl
  | _ =>
      simp only [apply, State.setCounter_counter, State.setStack_counter, State.setNw_counter,
        State.setNote_counter] <;> split_ifs <;> simp_all

theorem counter_waiters_apply :
    ((apply s t rest e).counter m).waiters = match e with
      | .popCounter c _ => if m = c then (s.counter m).waiters.tail else (s.counter m).waiters
      | .pushCounter c nw _ =>
          if m = c then (s.counter m).waiters ++ [nw] else (s.counter m).waiters
      | .removeCounter c nw _ =>
          if m = c then (s.counter m).waiters.erase nw else (s.counter m).waiters
      | _ => (s.counter m).waiters := by
  cases e with
  | adopt n c p f => cases p <;> rfl
  | link n p x f =>
      simp only [apply]
      split <;> rfl
  | _ =>
      simp only [apply, State.setCounter_counter, State.setStack_counter, State.setNw_counter,
        State.setNote_counter] <;> split_ifs <;> simp_all

/-! ## Records -/

theorem nw_apply :
    (apply s t rest e).nw m = match e with
      | .pushWaiter _ nw _ | .pushCounter _ nw _ =>
          if m = nw then { s.nw m with waiting := true, posts := 0 } else s.nw m
      | .removeWaiter _ nw b _ | .setWaiting nw b _ =>
          if m = nw then { s.nw m with waiting := b } else s.nw m
      | .removeCounter _ nw _ => if m = nw then { s.nw m with waiting := false } else s.nw m
      | .newRecords k b _ => if s.nws ≤ m ∧ m < s.nws + k then ⟨b, some t, 0⟩ else s.nw m
      | .post nw _ => if m = nw then { s.nw m with posts := (s.nw m).posts + 1 } else s.nw m
      | _ => s.nw m := by
  cases e with
  | adopt n c p f => cases p <;> rfl
  | link n p x f =>
      simp only [apply]
      split <;> rfl
  | _ =>
      simp only [apply, State.setNw_nw, State.setStack_nw, State.setCounter_nw, State.setNote_nw] <;>
        split_ifs <;> simp_all

theorem nws_apply :
    (apply s t rest e).nws = match e with
      | .newRecords k _ _ => s.nws + k
      | _ => s.nws := by
  cases e with
  | adopt n c p f => cases p <;> rfl
  | link n p x f =>
      simp only [apply]
      split <;> rfl
  | _ => rfl

end Nsync.Wait
