import Nsync.Wait.Order

/-!
# The owners of the locks

In every reached state the lock of a note belongs to the thread whose stack says
so, and the same for the lock of a counter.
-/

set_option linter.unusedSectionVars false

namespace Nsync.Wait

open Nsync.Lib

variable {T τ : Type}

/-- The lock that the caller of a function has taken for it. -/
def Fn.lent : Fn τ → List ℕ
  | .notifyChild n _ => [n]
  | _ => []

/-- The counters whose locks the call has. -/
def Frame.counterHeld : Frame τ → List ℕ
  | .counterAdd c _ p =>
      match p with
      | .lock | .result _ => []
      | _ => [c]
  | .counterEnqueue c _ p =>
      match p with
      | .link | .unlock _ => [c]
      | _ => []
  | .counterDequeue c _ p =>
      match p with
      | .unlink | .unlock _ => [c]
      | _ => []
  | _ => []

def counterHeldBy (l : List (Frame τ)) : List ℕ := l.flatMap Frame.counterHeld

def Eff.counterLocks {P : Type} : Eff τ P → List ℕ
  | .lockCounter c _ => [c]
  | _ => []

def Eff.counterUnlocks {P : Type} : Eff τ P → List ℕ
  | .unlockCounter c _ => [c]
  | _ => []

section

variable [DecidableEq T] [LinearOrder τ] [OrderTop τ] [Zero τ] {s s' : State T τ} {t u : T}
  {ch : Choice} {f f' g : Frame τ} {e : Eff τ (Frame τ)} {rest l : List (Frame τ)} {v : Val τ}
  {n m : ℕ}

/-! ## Returns -/

/-- The call `f` is about to return `v`. -/
inductive Returns : Frame τ → Val τ → Prop where
  | notifyChild (n : ℕ) (parent : Option ℕ) : Returns (.notifyChild n parent .done) .unit
  | notify (n : ℕ) : Returns (.notify n .done) .unit
  | deadline (n : ℕ) (a x : τ) : Returns (.deadline n a (.result x)) (.time x)
  | isNotified (n : ℕ) (b : Bool) : Returns (.isNotified n (.result b)) (.bool b)
  | noteNotify (n : ℕ) : Returns (.noteNotify n .done) .unit
  | noteNew (parent n : Option ℕ) (d : τ) : Returns (.noteNew parent d (.result n)) (.note n)
  | noteFree (n : ℕ) : Returns (.noteFree n .done) .unit
  | counterAdd (c : ℕ) (d v : Word) : Returns (.counterAdd c d (.result v)) (.value v)
  | counterReady (c : ℕ) (r : τ) : Returns (.counterReady c (.result r)) (.time r)
  | noteEnqueue (n nw : ℕ) (b : Bool) : Returns (.noteEnqueue n nw (.result b)) (.bool b)
  | noteDequeue (n nw : ℕ) (a : τ) (d : Dequeued) :
      Returns (.noteDequeue n nw a (.result d)) (.dequeued d)
  | counterEnqueue (c nw : ℕ) (b : Bool) : Returns (.counterEnqueue c nw (.result b)) (.bool b)
  | counterDequeue (c nw : ℕ) (d : Dequeued) :
      Returns (.counterDequeue c nw (.result d)) (.dequeued d)
  | semWait (d : τ) (cancel : Option ℕ) (o : SemOutcome) (slept : Option SemOutcome) :
      Returns (.semWait d cancel (.result o slept)) (.outcome o)
  | waitN (w : WaitN τ) : Returns (.waitN w .result) (.index w.ready)

theorem action_ret (h : action s t ch f = some (.ret v)) : Returns f v := by
  cases f with
  | notifyChild n parent p =>
      obtain ⟨e, he, hm⟩ := Option.map_eq_some_iff.mp h
      cases p <;> simp only [noteNotifyChild, lockNote] at he <;> (repeat' split at he) <;>
        cases he <;> (cases hm; try constructor)
  | notify n p =>
      obtain ⟨e, he, hm⟩ := Option.map_eq_some_iff.mp h
      cases p <;> simp only [notify, lockNote, tryLockNote] at he <;> (repeat' split at he) <;>
        cases he <;> (cases hm; try constructor)
  | deadline n a p =>
      obtain ⟨e, he, hm⟩ := Option.map_eq_some_iff.mp h
      cases p <;> simp only [noteNotifiedDeadline, lockNote] at he <;> (repeat' split at he) <;>
        cases he <;> (cases hm; try constructor)
  | isNotified n p =>
      obtain ⟨e, he, hm⟩ := Option.map_eq_some_iff.mp h
      cases p <;> cases he <;> (cases hm; try constructor)
  | noteNotify n p =>
      obtain ⟨e, he, hm⟩ := Option.map_eq_some_iff.mp h
      cases p <;> cases he <;> (cases hm; try constructor)
  | noteNew parent d p =>
      obtain ⟨e, he, hm⟩ := Option.map_eq_some_iff.mp h
      cases parent <;> cases p <;>
        simp only [noteNew, lockNote, Option.bind_none, Option.bind_some, Option.map_none,
          Option.map_some] at he <;> (repeat' split at he) <;>
        cases he <;> (cases hm; try constructor)
  | noteFree n p =>
      obtain ⟨e, he, hm⟩ := Option.map_eq_some_iff.mp h
      cases p <;> simp only [noteFree, lockNote, tryLockNote] at he <;> (repeat' split at he) <;>
        cases he <;> (cases hm; try constructor)
  | counterAdd c d p =>
      obtain ⟨e, he, hm⟩ := Option.map_eq_some_iff.mp h
      cases p <;> simp only [counterAdd, lockCounterMu] at he <;> (repeat' split at he) <;>
        cases he <;> (cases hm; try constructor)
  | counterReady c p =>
      obtain ⟨e, he, hm⟩ := Option.map_eq_some_iff.mp h
      cases p <;> cases he <;> (cases hm; try constructor)
  | noteEnqueue n nw p =>
      obtain ⟨e, he, hm⟩ := Option.map_eq_some_iff.mp h
      cases p <;> simp only [noteEnqueue, lockNote] at he <;> (repeat' split at he) <;>
        cases he <;> (cases hm; try constructor)
  | noteDequeue n nw a p =>
      obtain ⟨e, he, hm⟩ := Option.map_eq_some_iff.mp h
      cases p <;> simp only [noteDequeue, lockNote] at he <;> (repeat' split at he) <;>
        cases he <;> (cases hm; try constructor)
  | counterEnqueue c nw p =>
      obtain ⟨e, he, hm⟩ := Option.map_eq_some_iff.mp h
      cases p <;> simp only [counterEnqueue, lockCounterMu] at he <;> (repeat' split at he) <;>
        cases he <;> (cases hm; try constructor)
  | counterDequeue c nw p =>
      obtain ⟨e, he, hm⟩ := Option.map_eq_some_iff.mp h
      cases p <;> simp only [counterDequeue, lockCounterMu] at he <;> (repeat' split at he) <;>
        cases he <;> (cases hm; try constructor)
  | semWait d cancel p =>
      obtain ⟨e, he, hm⟩ := Option.map_eq_some_iff.mp h
      cases cancel <;> cases p <;>
        simp only [semWaitWithCancel, lockNote, semaphoreP, Option.bind_none, Option.bind_some,
          Option.map_none, Option.map_some] at he <;> (repeat' split at he) <;>
        cases he <;> (cases hm; try constructor)
  | waitN w p =>
      obtain ⟨e, he, hm⟩ := Option.map_eq_some_iff.mp h
      cases p <;> simp only [waitN, semaphoreP] at he <;> (repeat' split at he) <;>
        cases he <;> (cases hm; try constructor)

/-- A call that returns has only the lock that its caller took for it. -/
theorem Returns.held (h : Returns f v) : f.held = f.fn.lent := by
  cases h <;> rfl

theorem Returns.counterHeld (h : Returns f v) : f.counterHeld = [] := by
  cases h <;> rfl

theorem resume_held (hc : f.Calls g.fn) (v : Val τ) :
    (f.resume v).held.Perm (g.fn.lent ++ f.held) := by
  cases f with
  | notifyChild n parent p =>
      cases p <;> cases g <;> simp only [Frame.Calls, Frame.fn] at hc
      obtain ⟨rfl, -⟩ := hc
      exact .swap _ _ _
  | notify n p =>
      cases p <;> cases g <;> simp only [Frame.Calls, Frame.fn] at hc
      next q m _ _ =>
        obtain ⟨rfl, -⟩ := hc
        cases q with
        | none => exact .refl _
        | some q => exact .swap _ _ _
  | noteNew parent d p =>
      cases p <;> cases g <;> simp only [Frame.Calls, Frame.fn] at hc
      cases v with
      | bool b => cases b <;> cases parent <;> exact .refl _
      | _ => exact .refl _
  | deadline n a p =>
      cases p <;> cases g <;> simp only [Frame.Calls, Frame.fn] at hc
      exact .refl _
  | noteDequeue n nw a p =>
      cases p <;> cases g <;> simp only [Frame.Calls, Frame.fn] at hc
      exact .refl _
  | semWait d cancel p =>
      cases cancel <;> cases p <;> cases g <;> simp only [Frame.Calls, Frame.fn] at hc
      · cases v with
        | time x =>
            simp only [Frame.resume]
            split <;> exact .refl _
        | _ => exact .refl _
      · exact .refl _
  | isNotified n p =>
      cases p <;> cases g <;> simp only [Frame.Calls, Frame.fn] at hc
      cases v <;> exact .refl _
  | noteNotify n p =>
      cases p <;> cases g <;> simp only [Frame.Calls, Frame.fn] at hc
      · cases v <;> exact .refl _
      · exact .refl _
  | waitN w p =>
      have hg : g.fn.lent = [] := by
        cases g <;> try rfl
        cases p <;> simp only [Frame.Calls, Frame.fn] at hc
        all_goals
          obtain ⟨v, -, hv⟩ := hc
          cases v <;> cases hv
      rw [hg]
      cases p <;> cases v <;> simp only [Frame.resume] <;> (repeat' split) <;> exact .refl _
  | _ => cases g <;> simp only [Frame.Calls] at hc

/-- A call that waits for another one does not have the lock of a counter. -/
theorem Calls.counterHeld {k : Fn τ} (hc : f.Calls k) : f.counterHeld = [] := by
  cases f with
  | counterAdd c d p => simp only [Frame.Calls] at hc
  | counterEnqueue c nw p => simp only [Frame.Calls] at hc
  | counterDequeue c nw p => simp only [Frame.Calls] at hc
  | _ => rfl

theorem resume_counterHeld (hc : f.Calls g.fn) (v : Val τ) : (f.resume v).counterHeld = [] := by
  have hf := resume_fn f v
  cases f with
  | counterAdd c d p => simp only [Frame.Calls] at hc
  | counterEnqueue c nw p => simp only [Frame.Calls] at hc
  | counterDequeue c nw p => simp only [Frame.Calls] at hc
  | _ =>
      unfold Frame.resume
      repeat' split
      all_goals rfl

/-! ## Steps -/

theorem Eff.stack_cases (e : Eff τ (Frame τ)) (f : Frame τ) (rest : List (Frame τ)) :
    (∃ f', e.place = some f' ∧ e.stack f rest = e.callee.toList ++ f' :: rest) ∨
    (∃ v, e = .ret v ∧ e.stack f rest = Frame.returnTo v rest) ∨
    (e = .crash ∧ e.stack f rest = f :: rest) := by
  cases e with
  | ret v => exact Or.inr (Or.inl ⟨v, rfl, rfl⟩)
  | crash => exact Or.inr (Or.inr ⟨rfl, rfl⟩)
  | _ => exact Or.inl ⟨_, rfl, rfl⟩

theorem heldBy_stack (hok : StackOk (f :: rest)) (h : action s t ch f = some e) :
    (e.unlocks ++ heldBy (e.stack f rest)).Perm (e.locks ++ heldBy (f :: rest)) := by
  obtain ⟨f', hf', hst⟩ | ⟨v, rfl, hst⟩ | ⟨rfl, hst⟩ := e.stack_cases f rest
  · have := (action_held h hf').append_right (heldBy rest)
    rw [hst]
    simpa [heldBy, List.append_assoc] using this
  · rw [hst]
    have hr := action_ret h
    cases rest with
    | nil =>
        have hlent : f.fn.lent = [] := by
          cases hr <;> first | rfl | cases hok
        simp [Eff.unlocks, Eff.locks, heldBy, Frame.returnTo, hr.held, hlent]
    | cons c rest =>
        have := (resume_held hok.1 v).append_right (heldBy rest)
        simpa [Eff.unlocks, Eff.locks, heldBy, Frame.returnTo, hr.held, List.append_assoc] using this
  · rw [hst]
    exact .refl _

theorem action_counterHeld (h : action s t ch f = some e) (hf : e.place = some f') :
    e.counterUnlocks ++ (e.callee.toList.flatMap Frame.counterHeld ++ f'.counterHeld) =
      e.counterLocks ++ f.counterHeld := by
  cases f with
  | counterAdd c d p =>
      obtain ⟨e, he, rfl⟩ := Option.map_eq_some_iff.mp h
      cases p <;> simp only [counterAdd, lockCounterMu] at he <;> (repeat' split at he) <;>
        cases he <;> cases hf <;> rfl
  | counterEnqueue c nw p =>
      obtain ⟨e, he, rfl⟩ := Option.map_eq_some_iff.mp h
      cases p <;> simp only [counterEnqueue, lockCounterMu] at he <;> (repeat' split at he) <;>
        cases he <;> cases hf <;> rfl
  | counterDequeue c nw p =>
      obtain ⟨e, he, rfl⟩ := Option.map_eq_some_iff.mp h
      cases p <;> simp only [counterDequeue, lockCounterMu] at he <;> (repeat' split at he) <;>
        cases he <;> cases hf <;> rfl
  | notifyChild n parent p =>
      obtain ⟨e, he, rfl⟩ := Option.map_eq_some_iff.mp h
      cases p <;> simp only [noteNotifyChild, lockNote] at he <;> (repeat' split at he) <;>
        cases he <;> cases hf <;> rfl
  | notify n p =>
      obtain ⟨e, he, rfl⟩ := Option.map_eq_some_iff.mp h
      cases p <;> simp only [notify, lockNote, tryLockNote] at he <;> (repeat' split at he) <;>
        cases he <;> cases hf <;> rfl
  | deadline n a p =>
      obtain ⟨e, he, rfl⟩ := Option.map_eq_some_iff.mp h
      cases p <;> simp only [noteNotifiedDeadline, lockNote] at he <;> (repeat' split at he) <;>
        cases he <;> cases hf <;> rfl
  | isNotified n p =>
      obtain ⟨e, he, rfl⟩ := Option.map_eq_some_iff.mp h
      cases p <;> cases he <;> cases hf <;> rfl
  | noteNotify n p =>
      obtain ⟨e, he, rfl⟩ := Option.map_eq_some_iff.mp h
      cases p <;> cases he <;> cases hf <;> rfl
  | noteNew parent d p =>
      obtain ⟨e, he, rfl⟩ := Option.map_eq_some_iff.mp h
      cases parent <;> cases p <;>
        simp only [noteNew, lockNote, Option.bind_none, Option.bind_some, Option.map_none,
          Option.map_some] at he <;> (repeat' split at he) <;>
        cases he <;> cases hf <;> rfl
  | noteFree n p =>
      obtain ⟨e, he, rfl⟩ := Option.map_eq_some_iff.mp h
      cases p <;> simp only [noteFree, lockNote, tryLockNote] at he <;> (repeat' split at he) <;>
        cases he <;> cases hf <;> rfl
  | counterReady c p =>
      obtain ⟨e, he, rfl⟩ := Option.map_eq_some_iff.mp h
      cases p <;> cases he <;> cases hf <;> rfl
  | noteEnqueue n nw p =>
      obtain ⟨e, he, rfl⟩ := Option.map_eq_some_iff.mp h
      cases p <;> simp only [noteEnqueue, lockNote] at he <;> (repeat' split at he) <;>
        cases he <;> cases hf <;> rfl
  | noteDequeue n nw a p =>
      obtain ⟨e, he, rfl⟩ := Option.map_eq_some_iff.mp h
      cases p <;> simp only [noteDequeue, lockNote] at he <;> (repeat' split at he) <;>
        cases he <;> cases hf <;> rfl
  | semWait d cancel p =>
      obtain ⟨e, he, rfl⟩ := Option.map_eq_some_iff.mp h
      cases cancel <;> cases p <;>
        simp only [semWaitWithCancel, lockNote, semaphoreP, Option.bind_none, Option.bind_some,
          Option.map_none, Option.map_some] at he <;> (repeat' split at he) <;>
        cases he <;> cases hf <;> rfl
  | waitN w p =>
      obtain ⟨e, he, rfl⟩ := Option.map_eq_some_iff.mp h
      cases p <;> simp only [waitN, semaphoreP] at he <;> (repeat' split at he) <;>
        cases he <;> cases hf <;> first | rfl | (cases ‹Waitable› <;> rfl)

theorem StackOk.counterHeldBy_tail (hok : StackOk (f :: rest)) : counterHeldBy rest = [] := by
  induction rest generalizing f with
  | nil => rfl
  | cons c rest ih =>
      rw [counterHeldBy, List.flatMap_cons, Calls.counterHeld hok.1, List.nil_append]
      exact ih hok.2

theorem counterHeldBy_stack (hok : StackOk (f :: rest)) (h : action s t ch f = some e) :
    e.counterUnlocks ++ counterHeldBy (e.stack f rest) =
      e.counterLocks ++ counterHeldBy (f :: rest) := by
  obtain ⟨f', hf', hst⟩ | ⟨v, rfl, hst⟩ | ⟨rfl, hst⟩ := e.stack_cases f rest
  · have := congrArg (· ++ counterHeldBy rest) (action_counterHeld h hf')
    rw [hst]
    simpa [counterHeldBy, List.append_assoc] using this
  · rw [hst]
    have hr := action_ret h
    have hrest : counterHeldBy (Frame.returnTo v rest) = counterHeldBy rest := by
      cases rest with
      | nil => rfl
      | cons c rest =>
          simp [counterHeldBy, Frame.returnTo, resume_counterHeld hok.1, Calls.counterHeld hok.1]
    simp only [Eff.counterUnlocks, Eff.counterLocks, List.nil_append, hrest]
    simp [counterHeldBy, hr.counterHeld]
  · rw [hst]
    rfl

/-- An operation takes only a free lock. -/
theorem action_lock_free (h : action s t ch f = some e) :
    (∀ n ∈ e.locks, (s.note n).noteMu = none) ∧
      ∀ c ∈ e.counterLocks, (s.counter c).counterMu = none := by
  cases f with
  | notifyChild n parent p =>
      obtain ⟨e, he, rfl⟩ := Option.map_eq_some_iff.mp h
      cases p <;> simp only [noteNotifyChild, lockNote] at he <;> (repeat' split at he) <;>
        cases he <;> simp_all [Eff.map, Eff.locks, Eff.counterLocks]
  | notify n p =>
      obtain ⟨e, he, rfl⟩ := Option.map_eq_some_iff.mp h
      cases p <;> simp only [notify, lockNote, tryLockNote] at he <;> (repeat' split at he) <;>
        cases he <;> simp_all [Eff.map, Eff.locks, Eff.counterLocks]
  | deadline n a p =>
      obtain ⟨e, he, rfl⟩ := Option.map_eq_some_iff.mp h
      cases p <;> simp only [noteNotifiedDeadline, lockNote] at he <;> (repeat' split at he) <;>
        cases he <;> simp_all [Eff.map, Eff.locks, Eff.counterLocks]
  | isNotified n p =>
      obtain ⟨e, he, rfl⟩ := Option.map_eq_some_iff.mp h
      cases p <;> cases he <;> simp [Eff.map, Eff.locks, Eff.counterLocks]
  | noteNotify n p =>
      obtain ⟨e, he, rfl⟩ := Option.map_eq_some_iff.mp h
      cases p <;> cases he <;> simp [Eff.map, Eff.locks, Eff.counterLocks]
  | noteNew parent d p =>
      obtain ⟨e, he, rfl⟩ := Option.map_eq_some_iff.mp h
      cases parent <;> cases p <;>
        simp only [noteNew, lockNote, Option.bind_none, Option.bind_some, Option.map_none,
          Option.map_some] at he <;> (repeat' split at he) <;>
        cases he <;> simp_all [Eff.map, Eff.locks, Eff.counterLocks]
  | noteFree n p =>
      obtain ⟨e, he, rfl⟩ := Option.map_eq_some_iff.mp h
      cases p <;> simp only [noteFree, lockNote, tryLockNote] at he <;> (repeat' split at he) <;>
        cases he <;> simp_all [Eff.map, Eff.locks, Eff.counterLocks]
  | counterAdd c d p =>
      obtain ⟨e, he, rfl⟩ := Option.map_eq_some_iff.mp h
      cases p <;> simp only [counterAdd, lockCounterMu] at he <;> (repeat' split at he) <;>
        cases he <;> simp_all [Eff.map, Eff.locks, Eff.counterLocks]
  | counterReady c p =>
      obtain ⟨e, he, rfl⟩ := Option.map_eq_some_iff.mp h
      cases p <;> cases he <;> simp [Eff.map, Eff.locks, Eff.counterLocks]
  | noteEnqueue n nw p =>
      obtain ⟨e, he, rfl⟩ := Option.map_eq_some_iff.mp h
      cases p <;> simp only [noteEnqueue, lockNote] at he <;> (repeat' split at he) <;>
        cases he <;> simp_all [Eff.map, Eff.locks, Eff.counterLocks]
  | noteDequeue n nw a p =>
      obtain ⟨e, he, rfl⟩ := Option.map_eq_some_iff.mp h
      cases p <;> simp only [noteDequeue, lockNote] at he <;> (repeat' split at he) <;>
        cases he <;> simp_all [Eff.map, Eff.locks, Eff.counterLocks]
  | counterEnqueue c nw p =>
      obtain ⟨e, he, rfl⟩ := Option.map_eq_some_iff.mp h
      cases p <;> simp only [counterEnqueue, lockCounterMu] at he <;> (repeat' split at he) <;>
        cases he <;> simp_all [Eff.map, Eff.locks, Eff.counterLocks]
  | counterDequeue c nw p =>
      obtain ⟨e, he, rfl⟩ := Option.map_eq_some_iff.mp h
      cases p <;> simp only [counterDequeue, lockCounterMu] at he <;> (repeat' split at he) <;>
        cases he <;> simp_all [Eff.map, Eff.locks, Eff.counterLocks]
  | semWait d cancel p =>
      obtain ⟨e, he, rfl⟩ := Option.map_eq_some_iff.mp h
      cases cancel <;> cases p <;>
        simp only [semWaitWithCancel, lockNote, semaphoreP, Option.bind_none, Option.bind_some,
          Option.map_none, Option.map_some] at he <;> (repeat' split at he) <;>
        cases he <;> simp_all [Eff.map, Eff.locks, Eff.counterLocks]
  | waitN w p =>
      obtain ⟨e, he, rfl⟩ := Option.map_eq_some_iff.mp h
      cases p <;> simp only [waitN, semaphoreP] at he <;> (repeat' split at he) <;>
        cases he <;> simp [Eff.map, Eff.locks, Eff.counterLocks]

/-- The locks that a call has are of notes that it mentions. -/
theorem held_subset_ids (f : Frame τ) : f.held ⊆ f.ids := by
  cases f with
  | notifyChild n parent p => cases p <;> simp [Frame.held, Frame.ids]
  | notify n p => cases p <;> simp [Frame.held, Frame.ids]
  | deadline n a p => cases p <;> simp [Frame.held, Frame.ids]
  | noteNew parent d p => cases p <;> simp [Frame.held, Frame.ids]
  | noteFree n p => cases p <;> simp [Frame.held, Frame.ids]
  | noteEnqueue n nw p => cases p <;> simp [Frame.held, Frame.ids]
  | noteDequeue n nw a p => cases p <;> simp [Frame.held, Frame.ids]
  | semWait d cancel p => cases p <;> simp [Frame.held, Frame.ids]
  | _ => simp [Frame.held]

theorem IdsOk.held_lt (hi : IdsOk s) (hn : n ∈ heldBy (s.stack t)) : n < s.notes := by
  obtain ⟨f, hf, hn⟩ := List.mem_flatMap.mp hn
  exact hi.known t f hf n (held_subset_ids f hn)

end

end Nsync.Wait
