import Nsync.Wait.Step

/-!
# Stacks of calls and the locks of notes

The innermost calls of a thread are those that the calls below them made, and the
note locks that a thread has can be read off its stack: the lock of a note belongs
to the call that works on it.
-/

set_option linter.unusedSectionVars false

namespace Nsync.Wait

open Nsync.Lib

variable {T τ : Type}

/-! ## Who calls whom -/

/-- A function with its arguments, for the functions that are called by others. -/
inductive Fn (τ : Type) where
  | notifyChild (n : ℕ) (parent : Option ℕ)
  | notify (n : ℕ)
  | deadline (n : ℕ) (since : τ)
  | isNotified (n : ℕ)
  | noteNotify (n : ℕ)
  | counterReady (c : ℕ)
  | noteEnqueue (n nw : ℕ)
  | noteDequeue (n nw : ℕ) (since : τ)
  | counterEnqueue (c nw : ℕ)
  | counterDequeue (c nw : ℕ)
  /-- A function that only clients call. -/
  | client

def Frame.fn : Frame τ → Fn τ
  | .notifyChild n parent _ => .notifyChild n parent
  | .notify n _ => .notify n
  | .deadline n a _ => .deadline n a
  | .isNotified n _ => .isNotified n
  | .noteNotify n _ => .noteNotify n
  | .counterReady c _ => .counterReady c
  | .noteEnqueue n nw _ => .noteEnqueue n nw
  | .noteDequeue n nw a _ => .noteDequeue n nw a
  | .counterEnqueue c nw _ => .counterEnqueue c nw
  | .counterDequeue c nw _ => .counterDequeue c nw
  | .noteNew _ _ _ | .noteFree _ _ | .counterAdd _ _ _ | .semWait _ _ _ | .waitN _ _ => .client

/-- The call is one of `ready_time` for the object. -/
def Waitable.Readies : Waitable → Fn τ → Prop
  | .note n, .deadline m _ => m = n
  | .counter c, .counterReady d => d = c
  | _, _ => False

def Waitable.Enqueues (nw : ℕ) : Waitable → Fn τ → Prop
  | .note n, .noteEnqueue m x => m = n ∧ x = nw
  | .counter c, .counterEnqueue d x => d = c ∧ x = nw
  | _, _ => False

/-- The call is one of `dequeue` for the object and a record, made after the time
`timedOut`. -/
def Waitable.Dequeues [LE τ] (nw : ℕ) (timedOut : Option τ) : Waitable → Fn τ → Prop
  | .note n, .noteDequeue m x a => m = n ∧ x = nw ∧ ∀ b, timedOut = some b → b ≤ a
  | .counter c, .counterDequeue d x => d = c ∧ x = nw
  | _, _ => False

/-- The call `f` waits for the function `g` to return. -/
def Frame.Calls [LE τ] : Frame τ → Fn τ → Prop
  | .notifyChild n _ (.called child _), .notifyChild m p => m = child ∧ p = some n
  | .notify n (.called parent), .notifyChild m p => m = n ∧ p = parent
  | .deadline n _ .called, .notify m => m = n
  | .isNotified n .called, .deadline m _ => m = n
  | .noteNotify n .called, .deadline m _ => m = n
  | .noteNotify n .notifyCalled, .notify m => m = n
  | .noteNew _ _ (.called n), .isNotified m => m = n
  | .noteDequeue n _ a .called, .deadline m b => m = n ∧ a ≤ b
  | .semWait _ (some c) .called, .deadline m _ => m = c
  | .semWait _ (some c) (.notifyCalled _), .noteNotify m => m = c
  | .waitN w .firstCalled, g => ∃ v, w.waitable[w.ready]? = some v ∧ v.Readies g
  | .waitN w .enqueueCalled, g => ∃ v, w.waitable[w.i]? = some v ∧ v.Enqueues (w.nw + w.i) g
  | .waitN w (.scanCalled j _), g => ∃ v, w.waitable[j]? = some v ∧ v.Readies g
  | .waitN w (.dequeueCalled j), g =>
      ∃ v, w.waitable[j]? = some v ∧ v.Dequeues (w.nw + j) w.timedOut g
  | _, _ => False

/-- A function that clients call. -/
def Fn.Public : Fn τ → Prop
  | .isNotified _ | .noteNotify _ | .client => True
  | _ => False

/-- Every call in the stack, innermost first, was made by the one below, and the
outermost by a client. -/
def StackOk [LE τ] : List (Frame τ) → Prop
  | [] => True
  | [f] => f.fn.Public
  | g :: f :: l => f.Calls g.fn ∧ StackOk (f :: l)

/-- The place after the operation. -/
def Eff.place {P : Type} : Eff τ P → Option P
  | .goto p | .call p _ | .lock _ p | .unlock _ p | .setNotified _ p | .popWaiter _ p
  | .pushWaiter _ _ p | .removeWaiter _ _ _ p | .incr _ p | .decr _ p | .detach _ _ p
  | .adopt _ _ _ p | .malloc _ p | .link _ _ _ p | .free _ p | .newRecords _ _ p
  | .setWaiting _ _ p | .post _ p | .take p | .lockCounter _ p | .unlockCounter _ p
  | .setWaited _ p | .setValue _ _ p | .popCounter _ p | .pushCounter _ _ p
  | .removeCounter _ _ p => some p
  | .ret _ | .crash => none

/-- The call that the operation makes. -/
def Eff.callee {P : Type} : Eff τ P → Option (Frame τ)
  | .call _ g => some g
  | _ => none

theorem Eff.place_map {P Q : Type} (k : P → Q) (e : Eff τ P) :
    (e.map k).place = e.place.map k := by
  cases e <;> rfl

theorem Eff.callee_map {P Q : Type} (k : P → Q) (e : Eff τ P) : (e.map k).callee = e.callee := by
  cases e <;> rfl

/-- The stack of a thread after an operation of its innermost call `f`. -/
def Eff.stack [LinearOrder τ] [Zero τ] (f : Frame τ) (rest : List (Frame τ)) :
    Eff τ (Frame τ) → List (Frame τ)
  | .ret v => Frame.returnTo v rest
  | .crash => f :: rest
  | e => e.callee.toList ++ e.place.toList ++ rest

/-! ## The locks that a call has -/

/-- The notes whose locks the call has, parents before children.  While
`note_notify_child` runs it has the lock of its note, which its caller took. -/
def Frame.held : Frame τ → List ℕ
  | .notifyChild n _ p =>
      match p with
      | .check c _ | .unlockChild c _ => [n, c]
      | .waiting => []
      | _ => [n]
  | .notify n p =>
      match p with
      | .lock | .lockParent _ | .done => []
      | .relockSelf q => [q]
      | .call q => q.toList ++ [n]
      | .called q => q.toList
      | .unlockParent q => [q, n]
      | _ => [n]
  | .deadline n _ p =>
      match p with
      | .read | .unlock _ => [n]
      | _ => []
  | .noteNew parent _ p =>
      match p with
      | .link _ | .unlockParent _ => parent.toList
      | _ => []
  | .noteFree n p =>
      match p with
      | .lock | .lockParent _ | .free | .done => []
      | .relockSelf q => [q]
      | .first q | .loop q _ | .lockChild q _ _ | .wait q | .detach q => q.toList ++ [n]
      | .adopt q c _ | .unlockChild q c _ => q.toList ++ [n, c]
      | .waiting q => q.toList
      | .unlockParent q => [q, n]
      | _ => [n]
  | .noteEnqueue n _ p =>
      match p with
      | .link | .unlock _ => [n]
      | _ => []
  | .noteDequeue n _ _ p =>
      match p with
      | .unlink | .unlock _ => [n]
      | _ => []
  | .semWait _ cancel p =>
      match p with
      | .link _ | .unlockSleep _ _ _ | .unlink _ _ _ | .unlock _ _ _ => cancel.toList
      | _ => []
  | _ => []

/-- The notes whose locks a thread has. -/
def heldBy (l : List (Frame τ)) : List ℕ := l.flatMap Frame.held

section

variable [DecidableEq T] [LinearOrder τ] [OrderTop τ] [Zero τ] {s s' : State T τ} {t u : T}
  {ch : Choice} {f f' g : Frame τ} {e : Eff τ (Frame τ)} {rest l : List (Frame τ)} {v : Val τ}

theorem stack_apply (hs : s.stack t = f :: rest) : (apply s t rest e).stack t = e.stack f rest := by
  cases e with
  | crash => exact hs
  | adopt n c p f' => cases p <;> simp [apply, State.setStack, Eff.stack, Eff.callee, Eff.place]
  | _ => simp [apply, State.setStack, Eff.stack, Eff.callee, Eff.place]

theorem stack_apply_ne (hu : u ≠ t) : (apply s t rest e).stack u = s.stack u := by
  cases e with
  | adopt n c p f' => cases p <;> simp [apply, State.setStack, State.setNote, hu]
  | link n p x f' =>
      by_cases hx : 0 < x <;> simp [apply, State.setStack, State.setNote, hu, hx]
  | _ => simp [apply, State.setStack, State.setNote, State.setNw, State.setCounter, hu]

/-! ## The stack stays well formed -/

/-- The recorded times are in the past. -/
def Frame.Past (now : τ) : Frame τ → Prop
  | .deadline _ a _ | .noteDequeue _ _ a _ => a ≤ now
  | .waitN w _ => ∀ b, w.timedOut = some b → b ≤ now
  | _ => True

/-- The call `f` goes on with `e` as the same call, and calls what it then waits
for. -/
structure Fits (now : τ) (f : Frame τ) (e : Eff τ (Frame τ)) : Prop where
  place : ∀ f', e.place = some f' → f'.fn = f.fn ∧ f'.Past now
  callee : ∀ f' g, e = .call f' g → f'.Calls g.fn ∧ g.Past now

theorem Fits.of_map {P : Type} {k : P → Frame τ} {p : P} {x : Option (Eff τ P)}
    (h : x.map (Eff.map k) = some e) (hfn : ∀ q, (k q).fn = (k p).fn)
    (hpast : ∀ q, (∃ e', x = some e' ∧ e'.place = some q) → (k q).Past s.now)
    (hcall : ∀ q g, x = some (.call q g) → (k q).Calls g.fn ∧ g.Past s.now) :
    Fits s.now (k p) e := by
  obtain ⟨e', rfl, rfl⟩ := Option.map_eq_some_iff.mp h
  refine ⟨fun f' hf => ?_, fun f' g he => ?_⟩
  · rw [Eff.place_map] at hf
    obtain ⟨q, hq, rfl⟩ := Option.map_eq_some_iff.mp hf
    exact ⟨hfn q, hpast q ⟨e', rfl, hq⟩⟩
  · cases e' with
    | call q g' =>
        cases he
        exact hcall q g rfl
    | _ => cases he

theorem Waitable.readies_readyTime (w : Waitable) (now : τ) : w.Readies (w.readyTime now).fn := by
  cases w <;> rfl

theorem Waitable.enqueues_enqueue (w : Waitable) (nw : ℕ) :
    w.Enqueues nw (w.enqueue nw : Frame τ).fn := by
  cases w <;> exact ⟨rfl, rfl⟩

theorem Waitable.dequeues_dequeue (w : Waitable) (nw : ℕ) {now : τ} {b : Option τ}
    (hb : ∀ x, b = some x → x ≤ now) : w.Dequeues nw b (w.dequeue nw now).fn := by
  cases w with
  | note n => exact ⟨rfl, rfl, hb⟩
  | counter c => exact ⟨rfl, rfl⟩

/-- The calls that `nsync_wait_n` makes. -/
theorem waitN_calls {w : WaitN τ} {p : WaitPc τ} {q : WaitN τ × WaitPc τ}
    (h : waitN s t w ch p = some (.call q g)) :
    (∃ v, p = .first ∧ q = (w, .firstCalled) ∧ w.waitable[w.ready]? = some v ∧
      g = v.readyTime s.now) ∨
    (∃ v, p = .enqueue ∧ q = (w, .enqueueCalled) ∧ w.waitable[w.i]? = some v ∧
      g = v.enqueue (w.nw + w.i)) ∨
    (∃ j m v, p = .scan j m ∧ q = (w, .scanCalled j m) ∧ w.waitable[j]? = some v ∧
      g = v.readyTime s.now) ∨
    (∃ j v, p = .dequeue j ∧ j ≠ w.i ∧ q = (w, .dequeueCalled j) ∧ w.waitable[j]? = some v ∧
      g = v.dequeue (w.nw + j) s.now) := by
  cases p with
  | first =>
      rw [waitN] at h
      split at h
      · next v hv =>
          cases h
          exact Or.inl ⟨v, rfl, rfl, hv, rfl⟩
      · cases h
  | enqueue =>
      rw [waitN] at h
      split at h
      · next v hv =>
          cases h
          exact Or.inr (Or.inl ⟨v, rfl, rfl, hv, rfl⟩)
      · cases h
  | scan j m =>
      rw [waitN] at h
      split at h
      · next v hv =>
          cases h
          exact Or.inr (Or.inr (Or.inl ⟨j, m, v, rfl, rfl, hv, rfl⟩))
      · cases h
  | dequeue j =>
      rw [waitN] at h
      by_cases hj : j = w.i
      · rw [if_pos hj] at h
        cases h
      · rw [if_neg hj] at h
        split at h
        · next v hv =>
            cases h
            exact Or.inr (Or.inr (Or.inr ⟨j, v, rfl, hj, rfl, hv, rfl⟩))
        · cases h
  | sleep m =>
      cases ch <;> simp only [waitN, semaphoreP] at h <;> split at h <;> cases h
  | _ => cases h

theorem action_fits (h : action s t ch f = some e) (hp : f.Past s.now) : Fits s.now f e := by
  cases f with
  | notifyChild n parent p =>
      refine Fits.of_map h (fun _ => rfl) (fun _ _ => trivial) fun q g hc => ?_
      cases p <;> simp only [noteNotifyChild, lockNote] at hc <;>
        grind [Frame.fn, Frame.Calls, Frame.Past]
  | notify n p =>
      refine Fits.of_map h (fun _ => rfl) (fun _ _ => trivial) fun q g hc => ?_
      cases p <;> simp only [notify, lockNote, tryLockNote] at hc <;>
        grind [Frame.fn, Frame.Calls, Frame.Past]
  | deadline n a p =>
      refine Fits.of_map h (fun _ => rfl) (fun _ _ => hp) fun q g hc => ?_
      cases p <;> simp only [noteNotifiedDeadline, lockNote] at hc <;>
        grind [Frame.fn, Frame.Calls, Frame.Past]
  | isNotified n p =>
      refine Fits.of_map h (fun _ => rfl) (fun _ _ => trivial) fun q g hc => ?_
      cases p <;> simp only [noteIsNotified] at hc <;> grind [Frame.fn, Frame.Calls, Frame.Past]
  | noteNotify n p =>
      refine Fits.of_map h (fun _ => rfl) (fun _ _ => trivial) fun q g hc => ?_
      cases p <;> simp only [noteNotify] at hc <;> grind [Frame.fn, Frame.Calls, Frame.Past]
  | noteNew parent d p =>
      refine Fits.of_map h (fun _ => rfl) (fun _ _ => trivial) fun q g hc => ?_
      cases parent <;> cases p <;>
        simp only [noteNew, lockNote, Option.bind_none, Option.bind_some, Option.map_none,
          Option.map_some] at hc <;>
        grind [Frame.fn, Frame.Calls, Frame.Past]
  | noteFree n p =>
      refine Fits.of_map h (fun _ => rfl) (fun _ _ => trivial) fun q g hc => ?_
      cases p <;> simp only [noteFree, lockNote, tryLockNote] at hc <;> grind
  | counterAdd c d p =>
      refine Fits.of_map h (fun _ => rfl) (fun _ _ => trivial) fun q g hc => ?_
      cases p <;> simp only [counterAdd, lockCounterMu] at hc <;>
        (repeat' split at hc) <;> cases hc
  | counterReady c p =>
      refine Fits.of_map h (fun _ => rfl) (fun _ _ => trivial) fun q g hc => ?_
      cases p <;> cases hc
  | noteEnqueue n nw p =>
      refine Fits.of_map h (fun _ => rfl) (fun _ _ => trivial) fun q g hc => ?_
      cases p <;> simp only [noteEnqueue, lockNote] at hc <;> grind
  | noteDequeue n nw a p =>
      refine Fits.of_map h (fun _ => rfl) (fun _ _ => hp) fun q g hc => ?_
      cases p <;> simp only [noteDequeue, lockNote] at hc <;>
        grind [Frame.fn, Frame.Calls, Frame.Past]
  | counterEnqueue c nw p =>
      refine Fits.of_map h (fun _ => rfl) (fun _ _ => trivial) fun q g hc => ?_
      cases p <;> simp only [counterEnqueue, lockCounterMu] at hc <;>
        (repeat' split at hc) <;> cases hc
  | counterDequeue c nw p =>
      refine Fits.of_map h (fun _ => rfl) (fun _ _ => trivial) fun q g hc => ?_
      cases p <;> simp only [counterDequeue, lockCounterMu] at hc <;>
        (repeat' split at hc) <;> cases hc
  | semWait d cancel p =>
      refine Fits.of_map h (fun _ => rfl) (fun _ _ => trivial) fun q g hc => ?_
      cases cancel <;> cases p <;> cases ch <;>
        simp only [semWaitWithCancel, lockNote, semaphoreP, Option.bind_none, Option.bind_some,
          Option.map_none, Option.map_some] at hc <;>
        grind [Frame.fn, Frame.Calls, Frame.Past]
  | waitN w p =>
      refine Fits.of_map (p := (w, p)) h (fun _ => rfl) (fun q hq => ?_) fun q g hc => ?_
      · obtain ⟨e', he, hq⟩ := hq
        cases p <;> cases ch <;> simp only [waitN, semaphoreP] at he <;>
          grind [Eff.place, Frame.Past]
      · rcases waitN_calls hc with ⟨v, rfl, rfl, hv, rfl⟩ | ⟨v, rfl, rfl, hv, rfl⟩ |
          ⟨j, m, v, rfl, rfl, hv, rfl⟩ | ⟨j, v, rfl, -, rfl, hv, rfl⟩
        · exact ⟨⟨v, hv, v.readies_readyTime _⟩, by cases v <;> first | trivial | exact le_rfl⟩
        · exact ⟨⟨v, hv, v.enqueues_enqueue _⟩, by cases v <;> trivial⟩
        · exact ⟨⟨v, hv, v.readies_readyTime _⟩, by cases v <;> first | trivial | exact le_rfl⟩
        · exact ⟨⟨v, hv, v.dequeues_dequeue _ hp⟩, by cases v <;> first | trivial | exact le_rfl⟩

theorem resume_fn (f : Frame τ) (v : Val τ) : (f.resume v).fn = f.fn := by
  unfold Frame.resume
  repeat' split
  all_goals rfl

theorem resume_past {now : τ} (h : f.Past now) : (f.resume v).Past now := by
  unfold Frame.resume
  repeat' split
  all_goals trivial

theorem Frame.Past.mono {now now' : τ} (h : f.Past now) (hn : now ≤ now') : f.Past now' := by
  cases f with
  | deadline n a p => exact le_trans h hn
  | noteDequeue n nw a p => exact le_trans h hn
  | waitN w p => exact fun b hb => (h b hb).trans hn
  | _ => trivial

theorem StackOk.tail (h : StackOk (f :: rest)) : rest = [] ∨ StackOk rest := by
  cases rest with
  | nil => exact Or.inl rfl
  | cons g rest => exact Or.inr h.2

/-- Another place in the same call. -/
theorem StackOk.replace (h : StackOk (f :: rest)) (hfn : f'.fn = f.fn) : StackOk (f' :: rest) := by
  cases rest with
  | nil =>
      change f'.fn.Public
      rw [hfn]
      exact h
  | cons g rest => exact ⟨hfn ▸ h.1, h.2⟩

theorem StackOk.returnTo (h : StackOk (f :: rest)) (v : Val τ) :
    StackOk (Frame.returnTo v rest) := by
  cases rest with
  | nil => trivial
  | cons g rest => exact StackOk.replace h.2 (resume_fn g v)

/-- The stacks are well formed and the times in them are in the past. -/
structure StacksOk (s : State T τ) : Prop where
  stack : ∀ t, StackOk (s.stack t)
  past : ∀ t, ∀ f ∈ s.stack t, f.Past s.now

theorem now_apply : (apply s t rest e).now = s.now := by
  cases e with
  | adopt n c p f' => cases p <;> rfl
  | link n p x f' =>
      simp only [apply]
      split <;> rfl
  | _ => rfl

theorem eff_stack_ok (h : StackOk (f :: rest)) (hp : ∀ g ∈ f :: rest, g.Past s.now)
    (he : Fits s.now f e) :
    StackOk (e.stack f rest) ∧ ∀ g ∈ e.stack f rest, g.Past s.now := by
  have hrest : ∀ g ∈ rest, g.Past s.now := fun g hg => hp g (List.mem_cons_of_mem _ hg)
  -- Every operation but a call, a return and a crash replaces the innermost call.
  have hreplace : ∀ f', e.place = some f' →
      StackOk (f' :: rest) ∧ ∀ g ∈ f' :: rest, g.Past s.now := by
    intro f' hf'
    obtain ⟨hfn, hpast⟩ := he.place f' hf'
    refine ⟨h.replace hfn, fun g hg => ?_⟩
    rcases List.mem_cons.mp hg with rfl | hg
    · exact hpast
    · exact hrest g hg
  cases e with
  | ret v =>
      refine ⟨h.returnTo v, fun g hg => ?_⟩
      cases rest with
      | nil => cases hg
      | cons c rest =>
          rcases List.mem_cons.mp hg with rfl | hg
          · exact resume_past (hrest c List.mem_cons_self)
          · exact hrest g (List.mem_cons_of_mem _ hg)
  | crash => exact ⟨h, hp⟩
  | call f' g =>
      obtain ⟨hok, hpast⟩ := hreplace f' rfl
      obtain ⟨hcalls, hg⟩ := he.callee f' g rfl
      refine ⟨⟨hcalls, hok⟩, fun x hx => ?_⟩
      rcases List.mem_cons.mp hx with rfl | hx
      · exact hg
      · exact hpast x hx
  | _ => exact hreplace _ rfl

theorem stacksOk_initial (value : ℕ → Word) (sem : T → ℕ) (now : τ) :
    StacksOk (initial value sem now) :=
  ⟨fun _ => trivial, fun _ f hf => by cases hf⟩

/-- What a step can be. -/
theorem step_cases {i : T × Act τ} (hs : step i s = some s') : s.crashed = false ∧
    ((∃ c, i.2 = .call c ∧ s.stack i.1 = [] ∧ s' = s.setStack i.1 [c.frame]) ∨
    (∃ ch f rest e, i.2 = .step ch ∧ s.stack i.1 = f :: rest ∧ action s i.1 ch f = some e ∧
      s' = apply s i.1 rest e) ∨
    (i.2 = .post ∧ s' = { s with sem := Function.update s.sem i.1 (s.sem i.1 + 1) }) ∨
    ∃ x, i.2 = .tick x ∧ s.now ≤ x ∧ s' = { s with now := x }) := by
  obtain ⟨t, a⟩ := i
  rw [step] at hs
  by_cases hc : s.crashed = true
  · rw [if_pos hc] at hs
    cases hs
  rw [if_neg hc] at hs
  refine ⟨by simpa using hc, ?_⟩
  cases a with
  | call c =>
      by_cases hnil : s.stack t = []
      · simp only [hnil, if_true] at hs
        exact Or.inl ⟨c, rfl, hnil, (Option.some.inj hs).symm⟩
      · simp only [hnil, if_false] at hs
        cases hs
  | step ch =>
      cases hst : s.stack t with
      | nil => simp [hst] at hs
      | cons f rest =>
          simp only [hst] at hs
          obtain ⟨e, he, rfl⟩ := Option.map_eq_some_iff.mp hs
          exact Or.inr (Or.inl ⟨ch, f, rest, e, rfl, rfl, he, rfl⟩)
  | post => exact Or.inr (Or.inr (Or.inl ⟨rfl, (Option.some.inj hs).symm⟩))
  | tick x =>
      by_cases hx : s.now ≤ x
      · simp only [hx, if_true] at hs
        exact Or.inr (Or.inr (Or.inr ⟨x, rfl, hx, (Option.some.inj hs).symm⟩))
      · simp only [hx, if_false] at hs
        cases hs

theorem Call.frame_ok (c : Call τ) (now : τ) : StackOk [c.frame] ∧ c.frame.Past now := by
  cases c with
  | waitN mu d ws => exact ⟨trivial, fun b hb => by cases hb⟩
  | _ => exact ⟨trivial, trivial⟩

theorem step_stacksOk {i : T × Act τ} (h : StacksOk s) (hs : step i s = some s') : StacksOk s' := by
  obtain ⟨-, ⟨c, -, -, rfl⟩ | ⟨ch, f, rest, e, -, hst, he, rfl⟩ | ⟨-, rfl⟩ | ⟨x, -, hx, rfl⟩⟩ :=
    step_cases hs
  · obtain ⟨hok, hpast⟩ := c.frame_ok s.now
    refine ⟨fun u => ?_, fun u f hf => ?_⟩
    · by_cases hu : u = i.1
      · simpa [State.setStack, hu] using hok
      · simpa [State.setStack, hu] using h.stack u
    · by_cases hu : u = i.1
      · simp only [State.setStack, hu, Function.update_self, List.mem_singleton] at hf
        exact hf ▸ hpast
      · simp only [State.setStack, Function.update_of_ne hu] at hf
        exact h.past u f hf
  · have hpast := h.past i.1
    rw [hst] at hpast
    obtain ⟨hok, hpast'⟩ := eff_stack_ok (hst ▸ h.stack i.1) hpast
      (action_fits he (hpast f List.mem_cons_self))
    refine ⟨fun u => ?_, fun u g hg => ?_⟩
    · by_cases hu : u = i.1
      · rw [hu, stack_apply hst]
        exact hok
      · rw [stack_apply_ne hu]
        exact h.stack u
    · rw [now_apply]
      by_cases hu : u = i.1
      · rw [hu, stack_apply hst] at hg
        exact hpast' g hg
      · rw [stack_apply_ne hu] at hg
        exact h.past u g hg
  · exact ⟨h.stack, h.past⟩
  · exact ⟨h.stack, fun u f hf => (h.past u f hf).mono hx⟩

/-! ## The owners of the locks -/

/-- The lock that an operation takes. -/
def Eff.locks {P : Type} : Eff τ P → List ℕ
  | .lock n _ => [n]
  | _ => []

/-- The lock that an operation gives back. -/
def Eff.unlocks {P : Type} : Eff τ P → List ℕ
  | .unlock n _ => [n]
  | _ => []

theorem perm_child (q : Option ℕ) (n c : ℕ) :
    (q.toList ++ [n, c]).Perm (c :: (q.toList ++ [n])) := by
  cases q with
  | none => exact .swap c n []
  | some q => exact ((List.Perm.swap c n []).cons q).trans (.swap c q [n])

theorem perm_own (q : Option ℕ) (n : ℕ) : (n :: q.toList).Perm (q.toList ++ [n]) := by
  cases q with
  | none => exact .refl _
  | some q => exact .swap q n []

/-- The calls after an operation have the locks of the call before it, with the lock
that it takes and without the one that it gives back. -/
theorem action_held (h : action s t ch f = some e) (hf : e.place = some f') :
    (e.unlocks ++ (e.callee.toList.flatMap Frame.held ++ f'.held)).Perm (e.locks ++ f.held) := by
  cases f with
  | notifyChild n parent p =>
      obtain ⟨e, he, rfl⟩ := Option.map_eq_some_iff.mp h
      cases p <;> simp only [noteNotifyChild, lockNote] at he <;> (repeat' split at he) <;>
        cases he <;> cases hf <;>
        first | exact List.Perm.refl _ | exact List.Perm.swap _ _ _
  | notify n p =>
      obtain ⟨e, he, rfl⟩ := Option.map_eq_some_iff.mp h
      cases p <;> simp only [notify, lockNote, tryLockNote] at he <;> (repeat' split at he) <;>
        cases he <;> cases hf <;>
        first | exact List.Perm.refl _ | exact List.Perm.swap _ _ _ | exact perm_own _ _
  | deadline n a p =>
      obtain ⟨e, he, rfl⟩ := Option.map_eq_some_iff.mp h
      cases p <;> simp only [noteNotifiedDeadline, lockNote] at he <;> (repeat' split at he) <;>
        cases he <;> cases hf <;> exact List.Perm.refl _
  | isNotified n p =>
      obtain ⟨e, he, rfl⟩ := Option.map_eq_some_iff.mp h
      cases p <;> cases he <;> cases hf <;> exact List.Perm.refl _
  | noteNotify n p =>
      obtain ⟨e, he, rfl⟩ := Option.map_eq_some_iff.mp h
      cases p <;> cases he <;> cases hf <;> exact List.Perm.refl _
  | noteNew parent d p =>
      obtain ⟨e, he, rfl⟩ := Option.map_eq_some_iff.mp h
      cases parent <;> cases p <;>
        simp only [noteNew, lockNote, Option.bind_none, Option.bind_some, Option.map_none,
          Option.map_some] at he <;> (repeat' split at he) <;>
        cases he <;> cases hf <;> exact List.Perm.refl _
  | noteFree n p =>
      obtain ⟨e, he, rfl⟩ := Option.map_eq_some_iff.mp h
      cases p <;> simp only [noteFree, lockNote, tryLockNote] at he <;> (repeat' split at he) <;>
        cases he <;> cases hf <;>
        first
        | exact List.Perm.refl _
        | exact List.Perm.swap _ _ _
        | exact perm_own _ _
        | exact (perm_own _ _).symm
        | exact perm_child _ _ _
        | exact (perm_child _ _ _).symm
  | counterAdd c d p =>
      obtain ⟨e, he, rfl⟩ := Option.map_eq_some_iff.mp h
      cases p <;> simp only [counterAdd, lockCounterMu] at he <;> (repeat' split at he) <;>
        cases he <;> cases hf <;> exact List.Perm.refl _
  | counterReady c p =>
      obtain ⟨e, he, rfl⟩ := Option.map_eq_some_iff.mp h
      cases p <;> cases he <;> cases hf <;> exact List.Perm.refl _
  | noteEnqueue n nw p =>
      obtain ⟨e, he, rfl⟩ := Option.map_eq_some_iff.mp h
      cases p <;> simp only [noteEnqueue, lockNote] at he <;> (repeat' split at he) <;>
        cases he <;> cases hf <;> exact List.Perm.refl _
  | noteDequeue n nw a p =>
      obtain ⟨e, he, rfl⟩ := Option.map_eq_some_iff.mp h
      cases p <;> simp only [noteDequeue, lockNote] at he <;> (repeat' split at he) <;>
        cases he <;> cases hf <;> exact List.Perm.refl _
  | counterEnqueue c nw p =>
      obtain ⟨e, he, rfl⟩ := Option.map_eq_some_iff.mp h
      cases p <;> simp only [counterEnqueue, lockCounterMu] at he <;> (repeat' split at he) <;>
        cases he <;> cases hf <;> exact List.Perm.refl _
  | counterDequeue c nw p =>
      obtain ⟨e, he, rfl⟩ := Option.map_eq_some_iff.mp h
      cases p <;> simp only [counterDequeue, lockCounterMu] at he <;> (repeat' split at he) <;>
        cases he <;> cases hf <;> exact List.Perm.refl _
  | semWait d cancel p =>
      obtain ⟨e, he, rfl⟩ := Option.map_eq_some_iff.mp h
      cases cancel <;> cases p <;>
        simp only [semWaitWithCancel, lockNote, semaphoreP, Option.bind_none, Option.bind_some,
          Option.map_none, Option.map_some] at he <;> (repeat' split at he) <;>
        cases he <;> cases hf <;> exact List.Perm.refl _
  | waitN w p =>
      obtain ⟨e, he, rfl⟩ := Option.map_eq_some_iff.mp h
      cases p <;> simp only [waitN, semaphoreP] at he <;> (repeat' split at he) <;>
        cases he <;> cases hf <;> first | exact List.Perm.refl _ | (cases ‹Waitable› <;> exact .refl _)

end

end Nsync.Wait
