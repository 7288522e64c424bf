import Nsync.Wait.Owners
import Nsync.Lib.Locks

/-!
# Notes cannot deadlock on their locks

Along the chain of notes whose locks a thread holds, each was made before the next:
parents are older than their children, and adoption by a grandparent keeps this.  A
thread that waits for the lock of a note holds only locks of older notes.
-/

set_option linter.unusedSectionVars false

namespace Nsync.Wait

open Nsync.Lib

variable {T τ : Type} [DecidableEq T] [LinearOrder τ] [OrderTop τ] [Zero τ] {s s' : State T τ}
  {t u : T} {ch : Choice} {f f' g : Frame τ} {e : Eff τ (Frame τ)} {rest l : List (Frame τ)} {n m : ℕ}

/-! ## Owners -/

/-- The locks of the notes belong to the threads whose calls have them. -/
def NoteLocks (s : State T τ) : Prop :=
  Locks (fun n => (s.note n).noteMu) fun t => heldBy (s.stack t)

/-- The locks of the counters belong to the threads whose calls have them. -/
def CounterLocks (s : State T τ) : Prop :=
  Locks (fun c => (s.counter c).counterMu) fun t => counterHeldBy (s.stack t)

theorem noteLocks_initial (value : ℕ → Word) (sem : T → ℕ) (now : τ) :
    NoteLocks (initial value sem now) :=
  ⟨fun _ _ => iff_of_false (by simp [initial]) List.not_mem_nil, fun _ => List.nodup_nil⟩

theorem counterLocks_initial (value : ℕ → Word) (sem : T → ℕ) (now : τ) :
    CounterLocks (initial value sem now) :=
  ⟨fun _ _ => iff_of_false (by simp [initial]) List.not_mem_nil, fun _ => List.nodup_nil⟩

theorem Call.held (c : Call τ) : heldBy [c.frame] = [] ∧ counterHeldBy [c.frame] = [] := by
  cases c <;> exact ⟨rfl, rfl⟩

/-- A lock that nobody has yet: the note does not exist. -/
theorem NoteLocks.unused (hl : NoteLocks s) (hi : IdsOk s) : (s.note s.notes).noteMu = none := by
  cases h : (s.note s.notes).noteMu with
  | none => rfl
  | some u => exact absurd (hi.held_lt ((hl.owner _ u).mp h)) (lt_irrefl _)

theorem NoteLocks.apply (hl : NoteLocks s) (hi : IdsOk s) (hok : StackOk (f :: rest))
    (hst : s.stack t = f :: rest) (h : action s t ch f = some e) :
    NoteLocks (apply s t rest e) := by
  have hfree := (action_lock_free h).1
  have hperm := heldBy_stack hok h
  refine Locks.step hl t e.locks e.unlocks ?_ ?_ ?_ hfree ?_ ?_ ?_ ?_
  · intro u hu
    rw [stack_apply_ne hu]
  · rw [stack_apply hst, hst]
    exact hperm
  · cases e <;> simp [Eff.locks]
  · cases e <;> simp [Eff.locks, Eff.unlocks]
  · intro k hk
    rw [noteMu_apply]
    cases e <;> simp_all [Eff.locks]
  · intro k hk
    rw [noteMu_apply]
    cases e <;> simp_all [Eff.unlocks]
  · intro k hk hk'
    rw [noteMu_apply]
    have hnew := hl.unused hi
    cases e with
    | malloc d p =>
      by_cases hkn : k = s.notes
      · simp [hkn, hnew]
      · simp [hkn]
    | _ => simp_all [Eff.locks, Eff.unlocks]

theorem CounterLocks.apply (hl : CounterLocks s) (hok : StackOk (f :: rest))
    (hst : s.stack t = f :: rest) (h : action s t ch f = some e) :
    CounterLocks (apply s t rest e) := by
  have hfree := (action_lock_free h).2
  have hperm := counterHeldBy_stack hok h
  refine Locks.step hl t e.counterLocks e.counterUnlocks ?_ ?_ ?_ hfree ?_ ?_ ?_ ?_
  · intro u hu
    rw [stack_apply_ne hu]
  · rw [stack_apply hst, hst, hperm]
  · cases e <;> simp [Eff.counterLocks]
  · cases e <;> simp [Eff.counterLocks, Eff.counterUnlocks]
  · intro k hk
    rw [counterMu_apply]
    cases e <;> simp_all [Eff.counterLocks]
  · intro k hk
    rw [counterMu_apply]
    cases e <;> simp_all [Eff.counterUnlocks]
  · intro k hk hk'
    rw [counterMu_apply]
    cases e <;> simp_all [Eff.counterLocks, Eff.counterUnlocks]

/-- A thread without a call begins one. -/
theorem Locks.call {mu : ℕ → Option T} {held : List (Frame τ) → List ℕ} (hnil : held [] = [])
    {stack : T → List (Frame τ)} (hl : Locks mu fun t => held (stack t)) (ht : stack t = [])
    (hf : held l = []) : Locks mu fun u => held (Function.update stack t l u) := by
  have heq : (fun u => held (Function.update stack t l u)) = fun u => held (stack u) := by
    funext u
    by_cases hu : u = t
    · subst hu
      simp [ht, hnil, hf]
    · simp [hu]
  rw [heq]
  exact hl

/-- The facts about the locks that every step keeps. -/
structure LocksOk (s : State T τ) : Prop where
  stack : StacksOk s
  ids : IdsOk s
  notes : NoteLocks s
  counters : CounterLocks s

theorem locksOk_initial (value : ℕ → Word) (sem : T → ℕ) (now : τ) :
    LocksOk (initial value sem now) :=
  ⟨stacksOk_initial value sem now, idsOk_initial value sem now, noteLocks_initial value sem now,
    counterLocks_initial value sem now⟩

theorem step_locksOk {i : T × Act τ} (h : LocksOk s) (hk : Known i s) (hs : step i s = some s') :
    LocksOk s' := by
  have hlocks : NoteLocks s' ∧ CounterLocks s' := by
    obtain ⟨-, ⟨c, -, hnil, rfl⟩ | ⟨ch, f, rest, e, -, hst, he, rfl⟩ | ⟨-, rfl⟩ | ⟨x, -, -, rfl⟩⟩ :=
      step_cases hs
    · exact ⟨Locks.call rfl h.notes hnil c.held.1, Locks.call rfl h.counters hnil c.held.2⟩
    · have hok : StackOk (f :: rest) := hst ▸ h.stack.stack i.1
      exact ⟨h.notes.apply h.ids hok hst he, h.counters.apply hok hst he⟩
    · exact ⟨h.notes, h.counters⟩
    · exact ⟨h.notes, h.counters⟩
  exact ⟨step_stacksOk h.stack hs, step_idsOk h.ids hk hs, hlocks.1, hlocks.2⟩

theorem reach_locksOk {value : ℕ → Word} {sem : T → ℕ} {now : τ}
    (h : Reach step Known (initial value sem now) s) : LocksOk s :=
  h.invariant (locksOk_initial value sem now) fun _ _ _ _ ha hk hs => step_locksOk ha hk hs

/-! ## Waiting for a lock -/

/-- The note whose lock the call is about to acquire, also when it wakes up in
`WAIT_FOR_NO_CHILDREN`. -/
def Frame.wants : Frame τ → Option ℕ
  | .notifyChild n _ p =>
      match p with
      | .lockChild c _ => some c
      | .waiting => some n
      | _ => none
  | .notify n p =>
      match p with
      | .lock | .relockSelf _ => some n
      | .lockParent q => some q
      | _ => none
  | .deadline n _ .lock => some n
  | .noteNew parent _ (.lockParent _) => parent
  | .noteFree n p =>
      match p with
      | .lock | .relockSelf _ | .waiting _ => some n
      | .lockParent q => some q
      | .lockChild _ c _ => some c
      | _ => none
  | .noteEnqueue n _ .lock => some n
  | .noteDequeue n _ _ .lock => some n
  | .semWait _ cancel (.lock _) => cancel
  | .semWait _ cancel (.relock _ _ _) => cancel
  | _ => none

/-- The note whose lock the thread is about to acquire. -/
def State.wants (s : State T τ) (t : T) : Option ℕ := (s.stack t).head?.bind Frame.wants

/-- A call of `note_notify_child`. -/
def Fn.NotifiesChild : Fn τ → Prop
  | .notifyChild _ _ => True
  | _ => False

/-- Who calls `note_notify_child`; the other calls are made with no lock. -/
theorem Calls.cases {c : Frame τ} {F : Fn τ} (h : c.Calls F) :
    (∃ n parent child next, c = .notifyChild n parent (.called child next) ∧
      F = .notifyChild child (some n)) ∨
    (∃ n parent, c = .notify n (.called parent) ∧ F = .notifyChild n parent) ∨
    (c.held = [] ∧ ¬ c.fn.NotifiesChild ∧ ¬ F.NotifiesChild) := by
  have hready : ∀ (v : Waitable) (G : Fn τ), v.Readies G → ¬ G.NotifiesChild := by
    intro v G hG
    cases v <;> cases G <;> first | exact id | exact hG.elim
  have henq : ∀ (v : Waitable) (nw : ℕ) (G : Fn τ), v.Enqueues nw G → ¬ G.NotifiesChild := by
    intro v nw G hG
    cases v <;> cases G <;> first | exact id | exact hG.elim
  have hdeq : ∀ (v : Waitable) (nw : ℕ) (b : Option τ) (G : Fn τ), v.Dequeues nw b G →
      ¬ G.NotifiesChild := by
    intro v nw b G hG
    cases v <;> cases G <;> first | exact id | exact hG.elim
  unfold Frame.Calls at h
  split at h
  case h_1 n parent child next m p =>
    obtain ⟨rfl, rfl⟩ := h
    exact Or.inl ⟨n, parent, m, next, rfl, rfl⟩
  case h_2 n parent m p =>
    obtain ⟨rfl, rfl⟩ := h
    exact Or.inr (Or.inl ⟨m, p, rfl, rfl⟩)
  case h_11 w =>
    obtain ⟨v, -, hv⟩ := h
    exact Or.inr (Or.inr ⟨rfl, id, hready v _ hv⟩)
  case h_12 w =>
    obtain ⟨v, -, hv⟩ := h
    exact Or.inr (Or.inr ⟨rfl, id, henq v _ _ hv⟩)
  case h_13 w j m =>
    obtain ⟨v, -, hv⟩ := h
    exact Or.inr (Or.inr ⟨rfl, id, hready v _ hv⟩)
  case h_14 w j =>
    obtain ⟨v, -, hv⟩ := h
    exact Or.inr (Or.inr ⟨rfl, id, hdeq v _ _ _ hv⟩)
  all_goals first | exact h.elim | exact Or.inr (Or.inr ⟨rfl, id, id⟩)

/-- What the calls below one of `note_notify_child` have locked is older than its note,
and the calls below any other one have nothing locked. -/
theorem heldBy_below (hok : StackOk (f :: rest)) (hord : ∀ g ∈ f :: rest, g.Ordered) :
    (∀ n parent, f.fn = .notifyChild n parent → ∀ m ∈ heldBy rest, m < n) ∧
      (¬ f.fn.NotifiesChild → heldBy rest = []) := by
  induction rest generalizing f with
  | nil => exact ⟨fun _ _ _ m hm => absurd hm List.not_mem_nil, fun _ => rfl⟩
  | cons c rest ih =>
    have hc := hord c (List.mem_cons_of_mem f List.mem_cons_self)
    obtain ⟨ihchild, ihother⟩ := ih hok.2 fun g hg => hord g (List.mem_cons_of_mem f hg)
    rcases Calls.cases hok.1 with ⟨n, parent, child, next, rfl, hF⟩ | ⟨n, parent, rfl, hF⟩ | ⟨hh, hcf, hF⟩
    · refine ⟨fun k q hk m hm => ?_, fun hn => absurd (hF ▸ trivial) hn⟩
      rw [hF] at hk
      cases hk
      rcases List.mem_cons.mp hm with rfl | hm
      · exact hc.2.1
      · exact (ihchild n parent rfl m hm).trans hc.2.1
    · refine ⟨fun k q hk m hm => ?_, fun hn => absurd (hF ▸ trivial) hn⟩
      rw [hF] at hk
      cases hk
      have hm' : m ∈ parent.toList ++ heldBy rest := hm
      rw [ihother id, List.append_nil, Option.mem_toList] at hm'
      exact hc m hm'
    · refine ⟨fun k q hk => absurd (hk ▸ trivial) hF, fun _ => ?_⟩
      have heq : heldBy (c :: rest) = c.held ++ heldBy rest := rfl
      rw [heq, hh, ihother hcf, List.append_nil]

/-- A call that is about to acquire the lock of a note has locked older notes only. -/
theorem held_lt_wants (hf : f.Ordered) (hw : f.wants = some n) : ∀ m ∈ f.held, m < n := by
  intro m hm
  cases f with
  | notifyChild k parent p =>
    cases p <;> simp only [Frame.wants, Option.some.injEq, reduceCtorEq] at hw <;> subst hw
    · rw [List.mem_singleton.mp hm]
      exact hf.2.1
    · exact absurd hm List.not_mem_nil
  | notify k p =>
    cases p <;> simp only [Frame.wants, Option.some.injEq, reduceCtorEq] at hw <;> subst hw
    · exact absurd hm List.not_mem_nil
    · exact absurd hm List.not_mem_nil
    · rw [List.mem_singleton.mp hm]
      exact hf
  | deadline k a p =>
    cases p <;> cases hw
    exact absurd hm List.not_mem_nil
  | noteNew parent d p =>
    cases p <;> cases hw
    exact absurd hm List.not_mem_nil
  | noteFree k p =>
    cases p <;> simp only [Frame.wants, Option.some.injEq, reduceCtorEq] at hw <;> subst hw
    · exact absurd hm List.not_mem_nil
    · exact absurd hm List.not_mem_nil
    · rw [List.mem_singleton.mp hm]
      exact hf
    · rcases List.mem_append.mp hm with hm | hm
      · exact (hf.1 m (Option.mem_toList.mp hm)).trans hf.2.1
      · rw [List.mem_singleton.mp hm]
        exact hf.2.1
    · exact hf m (Option.mem_toList.mp hm)
  | noteEnqueue k nw p =>
    cases p <;> cases hw
    exact absurd hm List.not_mem_nil
  | noteDequeue k nw a p =>
    cases p <;> cases hw
    exact absurd hm List.not_mem_nil
  | semWait d cancel p => cases p <;> cases hw <;> exact absurd hm List.not_mem_nil
  | _ => cases hw

/-- The note of a call of `note_notify_child` is not younger than the one that the call
waits for. -/
theorem le_wants (hf : f.Ordered) (hw : f.wants = some n) {k : ℕ} {parent : Option ℕ}
    (hfn : f.fn = .notifyChild k parent) : k ≤ n := by
  cases f with
  | notifyChild k' parent' p =>
    cases hfn
    cases p <;> simp only [Frame.wants, Option.some.injEq, reduceCtorEq] at hw <;> subst hw
    · exact hf.2.1.le
    · exact le_rfl
  | _ => cases hfn

/-- A thread that waits for the lock of a note holds only locks of older notes. -/
theorem LocksOk.wants_above (h : LocksOk s) (t : T) (k : ℕ) (hk : s.wants t = some k) :
    ∀ m ∈ heldBy (s.stack t), m < k := by
  intro m hm
  cases hst : s.stack t with
  | nil =>
    rw [hst] at hm
    exact absurd hm List.not_mem_nil
  | cons f rest =>
    rw [State.wants, hst, List.head?_cons, Option.bind_some] at hk
    have hord : ∀ g ∈ f :: rest, g.Ordered := fun g hg => h.ids.ordered t g (hst ▸ hg)
    have hf := hord f List.mem_cons_self
    obtain ⟨hchild, hother⟩ := heldBy_below (hst ▸ h.stack.stack t) hord
    rw [hst] at hm
    rcases List.mem_append.mp hm with hm | hm
    · exact held_lt_wants hf hk m hm
    · cases hfn : f.fn with
      | notifyChild n parent => exact (hchild n parent hfn m hm).trans_le (le_wants hf hk hfn)
      | _ =>
        have hmem : m ∈ heldBy rest := hm
        rw [hother (by rw [hfn]; exact id)] at hmem
        exact absurd hmem List.not_mem_nil

/-- In no reachable state do threads wait for each other's notes in a circle. -/
theorem notes_do_not_deadlock {value : ℕ → Word} {sem : T → ℕ} {now : τ}
    (h : Reach step Known (initial value sem now) s) (t : T) :
    ¬ Relation.TransGen (Locks.WaitsFor (fun n => (s.note n).noteMu) s.wants) t t :=
  (reach_locksOk h).notes.not_circular (reach_locksOk h).wants_above t

/-- The check that calls are applied to notes that exist. -/
def knownCheck (i : T × Act τ) (s : State T τ) : Bool :=
  match i.2 with
  | .call c => c.notes.all fun n => decide (n < s.notes)
  | _ => true

theorem known_of_check (i : T × Act τ) (s : State T τ) (h : knownCheck i s = true) : Known i s := by
  intro c hc n hn
  rw [knownCheck, hc] at h
  simpa using List.all_eq_true.mp h n hn

/-- One thread makes a note and locks it to notify it, and the other one waits for the
lock. -/
def contendedRun : List (Bool × Act (WithTop ℕ)) :=
  (true, .call (.noteNew none ⊤)) :: List.replicate 11 (true, .step .run) ++
    (true, .call (.noteNotify 0)) :: List.replicate 3 (true, .step .run) ++
    (false, .call (.noteIsNotified 0)) :: List.replicate 2 (false, .step .run)

theorem notes_do_not_deadlock_contended :
    ∃ s, Reach step Known (initial (fun _ => 0#32) (fun _ : Bool => 0) (0 : WithTop ℕ)) s ∧
      s.wants false = some 0 ∧ (s.note 0).noteMu = some true ∧
      ¬ Relation.TransGen (Locks.WaitsFor (fun n => (s.note n).noteMu) s.wants) false false := by
  have hrun : ((exec step knownCheck contendedRun
      (initial (fun _ => 0#32) (fun _ : Bool => 0) (0 : WithTop ℕ))).map fun s =>
        decide (s.wants false = some 0 ∧ (s.note 0).noteMu = some true)) = some true := by
    decide +kernel
  obtain ⟨s, hs, hf⟩ := Reach.exists_of_exec known_of_check hrun
  have hf' := of_decide_eq_true hf
  exact ⟨s, hs, hf'.1, hf'.2, notes_do_not_deadlock hs false⟩

end Nsync.Wait
