import Nsync.Wait.Locals

/-!
# The records of a call

A record is pending from its allocation until `enqueue` has seen it, and joined to its
object from there until `dequeue` has seen it.  Both can be read off the stack of the
thread that owns the record.
-/

set_option linter.unusedSectionVars false

namespace Nsync.Wait

open Nsync.Lib

variable {T τ : Type}

/-! ## Pending and joined records -/

/-- The records of the objects from the one with the index `k` on. -/
def WaitN.pendingFrom (w : WaitN τ) (k : ℕ) : List ℕ :=
  (List.range' k (w.waitable.length - k)).map (w.nw + ·)

/-- The enqueued records from the one with the index `k` on. -/
def WaitN.joinedFrom (w : WaitN τ) (k : ℕ) : List (ℕ × Waitable) :=
  (List.range' k (w.i - k)).filterMap fun j => w.waitable[j]?.map fun v => (w.nw + j, v)

/-- The records of a call that no object has seen yet. -/
def Frame.pending : Frame τ → List ℕ
  | .noteEnqueue _ nw p | .counterEnqueue _ nw p =>
      match p with
      | .lock | .link => [nw]
      | _ => []
  | .semWait _ _ p =>
      match p with
      | .lock nw | .link nw => [nw]
      | _ => []
  | .waitN w p =>
      match p with
      | .enqueue => w.pendingFrom w.i
      | .enqueueCalled => w.pendingFrom (w.i + 1)
      | _ => []
  | _ => []

/-- The records of a call that have joined an object, with the object. -/
def Frame.joined : Frame τ → List (ℕ × Waitable)
  | .noteEnqueue n nw p =>
      match p with
      | .unlock _ | .result _ => [(nw, .note n)]
      | _ => []
  | .counterEnqueue c nw p =>
      match p with
      | .unlock _ | .result _ => [(nw, .counter c)]
      | _ => []
  | .noteDequeue n nw _ p =>
      match p with
      | .unlock _ | .result _ => []
      | _ => [(nw, .note n)]
  | .counterDequeue c nw p =>
      match p with
      | .unlock _ | .result _ => []
      | _ => [(nw, .counter c)]
  | .semWait _ (some c) p =>
      match p with
      | .unlockSleep nw _ _ | .sleep nw _ _ | .notifyCalled nw | .relock nw _ _
      | .unlink nw _ _ => [(nw, .note c)]
      | _ => []
  | .waitN w p =>
      match p with
      | .enqueue | .enqueueCalled | .unlockMu | .scan _ _ | .scanCalled _ _ | .sleep _ =>
          w.joinedFrom 0
      | .dequeue j => w.joinedFrom j
      | .dequeueCalled j => w.joinedFrom (j + 1)
      | _ => []
  | _ => []

def pendingBy (l : List (Frame τ)) : List ℕ := l.flatMap Frame.pending

def joinedBy (l : List (Frame τ)) : List (ℕ × Waitable) := l.flatMap Frame.joined

/-- The records that a thread uses. -/
def recordsBy (l : List (Frame τ)) : List ℕ := pendingBy l ++ (joinedBy l).map Prod.fst

/-- The record that joins its object. -/
def Frame.joins : Frame τ → Eff τ (Frame τ) → List (ℕ × Waitable)
  | .noteEnqueue n nw .link, _ => [(nw, .note n)]
  | .counterEnqueue c nw .link, _ => [(nw, .counter c)]
  | .semWait _ (some c) (.link nw), .pushWaiter _ _ _ => [(nw, .note c)]
  | _, _ => []

/-- The record that leaves its object. -/
def Frame.leaves : Frame τ → List (ℕ × Waitable)
  | .noteDequeue n nw _ .unlink => [(nw, .note n)]
  | .counterDequeue c nw .unlink => [(nw, .counter c)]
  | .semWait _ (some c) (.unlink nw _ _) => [(nw, .note c)]
  | _ => []

/-- The records that an operation allocates, if `k` have been allocated before. -/
def Eff.allocates {P : Type} (k : ℕ) : Eff τ P → List ℕ
  | .newRecords j _ _ => List.range' k j
  | _ => []

section

variable [DecidableEq T] [LinearOrder τ] [OrderTop τ] [Zero τ] {s s' : State T τ} {t u : T}
  {ch : Choice} {f f' g c : Frame τ} {e : Eff τ (Frame τ)} {rest l : List (Frame τ)} {v : Val τ}
  {w : WaitN τ} {p : WaitPc τ}

/-! ## The records of `nsync_wait_n` -/

theorem WaitN.pendingFrom_eq_cons {k : ℕ} (hk : k < w.waitable.length) :
    w.pendingFrom k = (w.nw + k) :: w.pendingFrom (k + 1) := by
  have hlen : w.waitable.length - k = (w.waitable.length - (k + 1)) + 1 := by omega
  rw [WaitN.pendingFrom, hlen, List.range'_succ, List.map_cons, WaitN.pendingFrom]

theorem WaitN.joinedFrom_eq_cons {k : ℕ} {a : Waitable} (hk : k < w.i)
    (ha : w.waitable[k]? = some a) : w.joinedFrom k = (w.nw + k, a) :: w.joinedFrom (k + 1) := by
  have hlen : w.i - k = (w.i - (k + 1)) + 1 := by omega
  rw [WaitN.joinedFrom, hlen, List.range'_succ, List.filterMap_cons, ha, WaitN.joinedFrom]
  rfl

theorem WaitN.joinedFrom_self : w.joinedFrom w.i = [] := by
  rw [WaitN.joinedFrom, Nat.sub_self]
  rfl

/-- One more record has been enqueued. -/
theorem WaitN.joinedFrom_succ {a : Waitable} (ha : w.waitable[w.i]? = some a) :
    ({ w with i := w.i + 1 } : WaitN τ).joinedFrom 0 = w.joinedFrom 0 ++ [(w.nw + w.i, a)] := by
  simp only [WaitN.joinedFrom, Nat.sub_zero]
  rw [List.range'_1_concat, List.filterMap_append]
  simp [ha]

theorem Waitable.readyTime_records (a : Waitable) (now : τ) :
    (a.readyTime now).pending = [] ∧ (a.readyTime now).joined = [] := by
  cases a <;> exact ⟨rfl, rfl⟩

theorem Waitable.enqueue_records (a : Waitable) (nw : ℕ) :
    (a.enqueue nw : Frame τ).pending = [nw] ∧ (a.enqueue nw : Frame τ).joined = [] := by
  cases a <;> exact ⟨rfl, rfl⟩

theorem Waitable.dequeue_records (a : Waitable) (nw : ℕ) (now : τ) :
    (a.dequeue nw now).pending = [] ∧ (a.dequeue nw now).joined = [(nw, a)] := by
  cases a <;> exact ⟨rfl, rfl⟩

/-- The records move between the calls of `nsync_wait_n` and those of `enqueue` and
`dequeue` that it makes. -/
theorem waitN_records {q : WaitN τ × WaitPc τ} {e : Eff τ (WaitN τ × WaitPc τ)}
    (h : waitN s t w ch p = some e) (hq : e.place = some q) (hw : w.Ok p) :
    e.callee.toList.flatMap Frame.joined ++ (Frame.waitN q.1 q.2).joined =
        (Frame.waitN w p).joined ∧
      e.callee.toList.flatMap Frame.pending ++ (Frame.waitN q.1 q.2).pending =
        e.allocates s.nws ++ (Frame.waitN w p).pending := by
  cases p with
  | first =>
    rw [waitN] at h
    split at h
    · next a ha =>
      cases h
      cases hq
      obtain ⟨hp, hj⟩ := a.readyTime_records s.now
      simp only [Eff.callee, Option.toList_some, List.flatMap_singleton, hp, hj]
      exact ⟨rfl, rfl⟩
    · cases h
      cases hq
      split <;> exact ⟨rfl, rfl⟩
  | alloc =>
    cases h
    cases hq
    have hi : w.i = 0 := hw.1.i
    refine ⟨?_, ?_⟩
    · simp [Eff.callee, Frame.joined, WaitN.joinedFrom, hi]
    · simp [Eff.callee, Eff.allocates, Frame.pending, WaitN.pendingFrom, hi, List.range'_eq_map_range]
  | enqueue =>
    rw [waitN] at h
    split at h
    · next a ha =>
      cases h
      cases hq
      obtain ⟨hp, hj⟩ := a.enqueue_records (τ := τ) (w.nw + w.i)
      have hlt : w.i < w.waitable.length := (List.getElem?_eq_some_iff.mp ha).1
      simp only [Eff.callee, Option.toList_some, List.flatMap_singleton, hp, hj]
      exact ⟨rfl, (WaitN.pendingFrom_eq_cons hlt).symm⟩
    · next ha =>
      cases h
      cases hq
      have hlen : w.waitable.length - w.i = 0 := Nat.sub_eq_zero_of_le (List.getElem?_eq_none_iff.mp ha)
      simp [Eff.callee, Eff.allocates, Frame.joined, Frame.pending, WaitN.pendingFrom, hlen]
  | unlockMu =>
    cases h
    cases hq
    split <;> exact ⟨rfl, rfl⟩
  | scan j m =>
    rw [waitN] at h
    split at h
    · next a ha =>
      cases h
      cases hq
      obtain ⟨hp, hj⟩ := a.readyTime_records s.now
      simp only [Eff.callee, Option.toList_some, List.flatMap_singleton, hp, hj]
      exact ⟨rfl, rfl⟩
    · cases h
      cases hq
      split <;> exact ⟨rfl, rfl⟩
  | sleep m =>
    cases ch <;> simp only [waitN, semaphoreP] at h <;> split at h <;> cases h <;> cases hq <;>
      exact ⟨rfl, rfl⟩
  | dequeue j =>
    rw [waitN] at h
    by_cases hj : j = w.i
    · rw [if_pos hj] at h
      cases h
      cases hq
      have hnil : w.joinedFrom j = [] := hj ▸ WaitN.joinedFrom_self
      refine ⟨?_, ?_⟩
      · split <;> simp [Eff.callee, Frame.joined, hnil]
      · split <;> simp [Eff.callee, Eff.allocates, Frame.pending]
    · rw [if_neg hj] at h
      split at h
      · next a ha =>
        cases h
        cases hq
        obtain ⟨hp, hd⟩ := a.dequeue_records (w.nw + j) s.now
        have hlt : j < w.i := lt_of_le_of_ne hw.1.index hj
        simp only [Eff.callee, Option.toList_some, List.flatMap_singleton, hp, hd]
        exact ⟨(WaitN.joinedFrom_eq_cons hlt ha).symm, rfl⟩
      · cases h
  | lockMu =>
    cases h
    cases hq
    exact ⟨rfl, rfl⟩
  | result =>
    cases h
    cases hq
  | _ => cases h

/-! ## The records of the other calls -/

theorem action_joined (h : action s t ch f = some e) (hf : e.place = some f') (hl : f.LocalsOk) :
    (f.leaves ++ (e.callee.toList.flatMap Frame.joined ++ f'.joined)).Perm
      (f.joins e ++ f.joined) := by
  cases f with
  | notifyChild n parent p =>
      obtain ⟨e, he, rfl⟩ := Option.map_eq_some_iff.mp h
      cases p <;> simp only [noteNotifyChild, lockNote] at he <;> (repeat' split at he) <;>
        cases he <;> cases hf <;> exact List.Perm.refl _
  | notify n p =>
      obtain ⟨e, he, rfl⟩ := Option.map_eq_some_iff.mp h
      cases p <;> simp only [notify, lockNote, tryLockNote] at he <;> (repeat' split at he) <;>
        cases he <;> cases hf <;> exact List.Perm.refl _
  | deadline n a p =>
      obtain ⟨e, he, rfl⟩ := Option.map_eq_some_iff.mp h
      cases p <;> simp only [noteNotifiedDeadline, lockNote] at he <;> (repeat' split at he) <;>
        cases he <;> cases hf <;> exact List.Perm.refl _
  | isNotified n p =>
      obtain ⟨e, he, rfl⟩ := Option.map_eq_some_iff.mp h
      cases p <;> cases he <;> cases hf
      exact List.Perm.refl _
  | noteNotify n p =>
      obtain ⟨e, he, rfl⟩ := Option.map_eq_some_iff.mp h
      cases p <;> cases he <;> cases hf <;> exact List.Perm.refl _
  | noteNew parent d p =>
      obtain ⟨e, he, rfl⟩ := Option.map_eq_some_iff.mp h
      cases parent <;> cases p <;>
        simp only [noteNew, lockNote, Option.bind_none, Option.bind_some, Option.map_none,
          Option.map_some] at he <;> (repeat' split at he) <;>
        cases he <;> cases hf <;> exact List.Perm.refl _
  | noteFree n p =>
      obtain ⟨e, he, rfl⟩ := Option.map_eq_some_iff.mp h
      cases p <;> simp only [noteFree, lockNote, tryLockNote] at he <;> (repeat' split at he) <;>
        cases he <;> cases hf <;> exact List.Perm.refl _
  | counterAdd c d p =>
      obtain ⟨e, he, rfl⟩ := Option.map_eq_some_iff.mp h
      cases p <;> simp only [counterAdd, lockCounterMu] at he <;> (repeat' split at he) <;>
        cases he <;> cases hf <;> exact List.Perm.refl _
  | counterReady c p =>
      obtain ⟨e, he, rfl⟩ := Option.map_eq_some_iff.mp h
      cases p <;> cases he <;> cases hf <;> exact List.Perm.refl _
  | noteEnqueue n nw p =>
      obtain ⟨e, he, rfl⟩ := Option.map_eq_some_iff.mp h
      cases p <;> simp only [noteEnqueue, lockNote] at he <;> (repeat' split at he) <;>
        cases he <;> cases hf <;> exact List.Perm.refl _
  | noteDequeue n nw a p =>
      obtain ⟨e, he, rfl⟩ := Option.map_eq_some_iff.mp h
      cases p <;> simp only [noteDequeue, lockNote] at he <;> (repeat' split at he) <;>
        cases he <;> cases hf <;> exact List.Perm.refl _
  | counterEnqueue c nw p =>
      obtain ⟨e, he, rfl⟩ := Option.map_eq_some_iff.mp h
      cases p <;> simp only [counterEnqueue, lockCounterMu] at he <;> (repeat' split at he) <;>
        cases he <;> cases hf <;> exact List.Perm.refl _
  | counterDequeue c nw p =>
      obtain ⟨e, he, rfl⟩ := Option.map_eq_some_iff.mp h
      cases p <;> simp only [counterDequeue, lockCounterMu] at he <;> (repeat' split at he) <;>
        cases he <;> cases hf <;> exact List.Perm.refl _
  | semWait d cancel p =>
      obtain ⟨e, he, rfl⟩ := Option.map_eq_some_iff.mp h
      cases cancel <;> cases p <;>
        simp only [semWaitWithCancel, lockNote, semaphoreP, Option.bind_none, Option.bind_some,
          Option.map_none, Option.map_some] at he <;> (repeat' split at he) <;>
        cases he <;> cases hf <;> exact List.Perm.refl _
  | waitN w p =>
      obtain ⟨e, he, rfl⟩ := Option.map_eq_some_iff.mp h
      rw [Eff.place_map] at hf
      obtain ⟨q, hq, rfl⟩ := Option.map_eq_some_iff.mp hf
      rw [Eff.callee_map, (waitN_records he hq hl).1]
      exact List.Perm.refl _

theorem action_pending (h : action s t ch f = some e) (hf : e.place = some f') (hl : f.LocalsOk) :
    ((f.joins e).map Prod.fst ++ (e.callee.toList.flatMap Frame.pending ++ f'.pending)).Sublist
      (e.allocates s.nws ++ f.pending) := by
  cases f with
  | notifyChild n parent p =>
      obtain ⟨e, he, rfl⟩ := Option.map_eq_some_iff.mp h
      cases p <;> simp only [noteNotifyChild, lockNote] at he <;> (repeat' split at he) <;>
        cases he <;> cases hf <;> exact List.Sublist.refl _
  | notify n p =>
      obtain ⟨e, he, rfl⟩ := Option.map_eq_some_iff.mp h
      cases p <;> simp only [notify, lockNote, tryLockNote] at he <;> (repeat' split at he) <;>
        cases he <;> cases hf <;> exact List.Sublist.refl _
  | deadline n a p =>
      obtain ⟨e, he, rfl⟩ := Option.map_eq_some_iff.mp h
      cases p <;> simp only [noteNotifiedDeadline, lockNote] at he <;> (repeat' split at he) <;>
        cases he <;> cases hf <;> exact List.Sublist.refl _
  | isNotified n p =>
      obtain ⟨e, he, rfl⟩ := Option.map_eq_some_iff.mp h
      cases p <;> cases he <;> cases hf
      exact List.Sublist.refl _
  | noteNotify n p =>
      obtain ⟨e, he, rfl⟩ := Option.map_eq_some_iff.mp h
      cases p <;> cases he <;> cases hf <;> exact List.Sublist.refl _
  | noteNew parent d p =>
      obtain ⟨e, he, rfl⟩ := Option.map_eq_some_iff.mp h
      cases parent <;> cases p <;>
        simp only [noteNew, lockNote, Option.bind_none, Option.bind_some, Option.map_none,
          Option.map_some] at he <;> (repeat' split at he) <;>
        cases he <;> cases hf <;> exact List.Sublist.refl _
  | noteFree n p =>
      obtain ⟨e, he, rfl⟩ := Option.map_eq_some_iff.mp h
      cases p <;> simp only [noteFree, lockNote, tryLockNote] at he <;> (repeat' split at he) <;>
        cases he <;> cases hf <;> exact List.Sublist.refl _
  | counterAdd c d p =>
      obtain ⟨e, he, rfl⟩ := Option.map_eq_some_iff.mp h
      cases p <;> simp only [counterAdd, lockCounterMu] at he <;> (repeat' split at he) <;>
        cases he <;> cases hf <;> exact List.Sublist.refl _
  | counterReady c p =>
      obtain ⟨e, he, rfl⟩ := Option.map_eq_some_iff.mp h
      cases p <;> cases he <;> cases hf <;> exact List.Sublist.refl _
  | noteEnqueue n nw p =>
      obtain ⟨e, he, rfl⟩ := Option.map_eq_some_iff.mp h
      cases p <;> simp only [noteEnqueue, lockNote] at he <;> (repeat' split at he) <;>
        cases he <;> cases hf <;> exact List.Sublist.refl _
  | noteDequeue n nw a p =>
      obtain ⟨e, he, rfl⟩ := Option.map_eq_some_iff.mp h
      cases p <;> simp only [noteDequeue, lockNote] at he <;> (repeat' split at he) <;>
        cases he <;> cases hf <;> exact List.Sublist.refl _
  | counterEnqueue c nw p =>
      obtain ⟨e, he, rfl⟩ := Option.map_eq_some_iff.mp h
      cases p <;> simp only [counterEnqueue, lockCounterMu] at he <;> (repeat' split at he) <;>
        cases he <;> cases hf <;> exact List.Sublist.refl _
  | counterDequeue c nw p =>
      obtain ⟨e, he, rfl⟩ := Option.map_eq_some_iff.mp h
      cases p <;> simp only [counterDequeue, lockCounterMu] at he <;> (repeat' split at he) <;>
        cases he <;> cases hf <;> exact List.Sublist.refl _
  | semWait d cancel p =>
      obtain ⟨e, he, rfl⟩ := Option.map_eq_some_iff.mp h
      cases cancel <;> cases p <;>
        simp only [semWaitWithCancel, lockNote, semaphoreP, Option.bind_none, Option.bind_some,
          Option.map_none, Option.map_some] at he <;> (repeat' split at he) <;>
        cases he <;> cases hf <;> first | exact List.Sublist.refl _ | exact List.nil_sublist _
  | waitN w p =>
      obtain ⟨e, he, rfl⟩ := Option.map_eq_some_iff.mp h
      rw [Eff.place_map] at hf
      obtain ⟨q, hq, rfl⟩ := Option.map_eq_some_iff.mp hf
      have hall : (e.map fun q => Frame.waitN q.1 q.2).allocates s.nws = e.allocates s.nws := by
        cases e <;> rfl
      rw [Eff.callee_map, (waitN_records he hq hl).2, hall]
      exact List.Sublist.refl _

/-! ## Returns -/

theorem Returns.pending (h : Returns f v) : f.pending = [] := by
  cases h <;> rfl

/-- Nothing is left joined when a client gets back control. -/
theorem Returns.joined_public (h : Returns f v) (hp : f.fn.Public) : f.joined = [] := by
  cases h with
  | noteEnqueue n nw b => exact hp.elim
  | counterEnqueue c nw b => exact hp.elim
  | semWait d cancel o slept => cases cancel <;> rfl
  | _ => rfl

theorem Returns.leaves_joins (h : Returns f v) : f.leaves = [] ∧ f.joins (.ret v) = [] := by
  cases h with
  | semWait d cancel o slept => cases cancel <;> exact ⟨rfl, rfl⟩
  | _ => exact ⟨rfl, rfl⟩

theorem crash_leaves_joins (h : action s t ch f = some .crash) :
    f.leaves = [] ∧ f.joins .crash = [] := by
  obtain ⟨e, he, hm⟩ : ∃ e, action s t ch f = some e ∧ e = .crash := ⟨_, h, rfl⟩
  cases f with
  | noteEnqueue n nw p =>
    obtain ⟨e', he', rfl⟩ := Option.map_eq_some_iff.mp he
    cases p <;> simp only [noteEnqueue, lockNote] at he' <;> (repeat' split at he') <;>
      cases he' <;> cases hm
  | counterEnqueue c nw p =>
    obtain ⟨e', he', rfl⟩ := Option.map_eq_some_iff.mp he
    cases p <;> simp only [counterEnqueue, lockCounterMu] at he' <;> (repeat' split at he') <;>
      cases he' <;> cases hm
  | noteDequeue n nw a p =>
    obtain ⟨e', he', rfl⟩ := Option.map_eq_some_iff.mp he
    cases p <;> simp only [noteDequeue, lockNote] at he' <;> (repeat' split at he') <;>
      cases he' <;> cases hm
  | counterDequeue c nw p =>
    obtain ⟨e', he', rfl⟩ := Option.map_eq_some_iff.mp he
    cases p <;> simp only [counterDequeue, lockCounterMu] at he' <;> (repeat' split at he') <;>
      cases he' <;> cases hm
  | semWait d cancel p =>
    obtain ⟨e', he', rfl⟩ := Option.map_eq_some_iff.mp he
    cases cancel <;> cases p <;>
      simp only [semWaitWithCancel, lockNote, semaphoreP, Option.bind_none, Option.bind_some,
        Option.map_none, Option.map_some] at he' <;> (repeat' split at he') <;>
      cases he' <;> cases hm
  | _ => exact ⟨rfl, rfl⟩

/-- The caller takes over the record that the call has joined to its object. -/
theorem resume_records (h : Returns f v) (hc : c.Calls f.fn) :
    (c.resume v).joined.Perm (f.joined ++ c.joined) ∧ (c.resume v).pending.Sublist c.pending := by
  cases c with
  | waitN w p =>
    cases p with
    | firstCalled =>
      obtain ⟨a, -, ha⟩ := hc
      cases a <;> cases h <;> try exact ha.elim
      all_goals
        simp only [Frame.resume]
        split <;> exact ⟨List.Perm.refl _, List.Sublist.refl _⟩
    | enqueueCalled =>
      obtain ⟨a, hw, ha⟩ := hc
      have hjoin := WaitN.joinedFrom_succ hw
      cases a <;> cases h <;> try exact ha.elim
      all_goals
        obtain ⟨rfl, rfl⟩ := ha
        simp only [Frame.resume]
        split
        · refine ⟨?_, List.Sublist.refl _⟩
          change (WaitN.joinedFrom _ 0).Perm _
          rw [hjoin]
          exact List.perm_append_comm
        · refine ⟨?_, List.nil_sublist _⟩
          change (WaitN.joinedFrom _ 0).Perm _
          rw [hjoin]
          exact List.perm_append_comm
    | scanCalled j m =>
      obtain ⟨a, -, ha⟩ := hc
      cases a <;> cases h <;> try exact ha.elim
      all_goals exact ⟨List.Perm.refl _, List.Sublist.refl _⟩
    | dequeueCalled j =>
      obtain ⟨a, -, ha⟩ := hc
      cases a <;> cases h <;> try exact ha.elim
      all_goals exact ⟨List.Perm.refl _, List.Sublist.refl _⟩
    | _ => exact hc.elim
  | semWait d cancel p =>
    cases cancel <;> cases p <;> try exact hc.elim
    all_goals
      cases h <;> try exact hc.elim
      simp only [Frame.resume]
      try split
      all_goals exact ⟨List.Perm.refl _, List.Sublist.refl _⟩
  | noteDequeue n nw a p =>
    cases p <;> try exact hc.elim
    cases h <;> try exact hc.elim
    exact ⟨List.Perm.refl _, List.Sublist.refl _⟩
  | noteNew parent d p =>
    cases p <;> try exact hc.elim
    cases h <;> try exact hc.elim
    exact ⟨List.Perm.refl _, List.Sublist.refl _⟩
  | noteNotify n p =>
    cases p <;> try exact hc.elim
    all_goals
      cases h <;> try exact hc.elim
      exact ⟨List.Perm.refl _, List.Sublist.refl _⟩
  | isNotified n p =>
    cases p <;> try exact hc.elim
    cases h <;> try exact hc.elim
    exact ⟨List.Perm.refl _, List.Sublist.refl _⟩
  | deadline n a p =>
    cases p <;> try exact hc.elim
    cases h <;> try exact hc.elim
    exact ⟨List.Perm.refl _, List.Sublist.refl _⟩
  | notify n p =>
    cases p <;> try exact hc.elim
    next q =>
      cases h <;> try exact hc.elim
      cases q <;> exact ⟨List.Perm.refl _, List.Sublist.refl _⟩
  | notifyChild n parent p =>
    cases p <;> try exact hc.elim
    cases h <;> try exact hc.elim
    exact ⟨List.Perm.refl _, List.Sublist.refl _⟩
  | _ => exact hc.elim

/-! ## Stacks -/

theorem joinedBy_stack (hok : StackOk (f :: rest)) (hl : f.LocalsOk)
    (h : action s t ch f = some e) :
    (f.leaves ++ joinedBy (e.stack f rest)).Perm (f.joins e ++ joinedBy (f :: rest)) := by
  obtain ⟨f', hf', hst⟩ | ⟨v, rfl, hst⟩ | ⟨rfl, hst⟩ := e.stack_cases f rest
  · have := (action_joined h hf' hl).append_right (joinedBy rest)
    rw [hst]
    simpa [joinedBy, List.append_assoc] using this
  · have hr := action_ret h
    rw [hst, hr.leaves_joins.1, hr.leaves_joins.2, List.nil_append, List.nil_append]
    cases rest with
    | nil =>
      have hnil : joinedBy [f] = f.joined := by simp [joinedBy]
      rw [hnil, hr.joined_public hok]
      exact List.Perm.refl _
    | cons c rest =>
      have := (resume_records hr hok.1).1.append_right (joinedBy rest)
      simpa [joinedBy, Frame.returnTo, List.append_assoc] using this
  · rw [hst, (crash_leaves_joins h).1, (crash_leaves_joins h).2]

theorem pendingBy_stack (hok : StackOk (f :: rest)) (hl : f.LocalsOk)
    (h : action s t ch f = some e) :
    ((f.joins e).map Prod.fst ++ pendingBy (e.stack f rest)).Sublist
      (e.allocates s.nws ++ pendingBy (f :: rest)) := by
  obtain ⟨f', hf', hst⟩ | ⟨v, rfl, hst⟩ | ⟨rfl, hst⟩ := e.stack_cases f rest
  · have := (action_pending h hf' hl).append_right (pendingBy rest)
    rw [hst]
    simpa [pendingBy, List.append_assoc] using this
  · have hr := action_ret h
    rw [hst, hr.leaves_joins.2, List.map_nil, List.nil_append]
    cases rest with
    | nil => exact List.nil_sublist _
    | cons c rest =>
      have := (resume_records hr hok.1).2.append_right (pendingBy rest)
      simpa [pendingBy, Frame.returnTo, Eff.allocates, hr.pending] using this
  · rw [hst, (crash_leaves_joins h).2]
    exact List.Sublist.refl _

/-- The records that a thread uses after an operation are among those that it used before
and those that the operation allocates. -/
theorem recordsBy_stack (hok : StackOk (f :: rest)) (hl : f.LocalsOk)
    (h : action s t ch f = some e) :
    (f.leaves.map Prod.fst ++ recordsBy (e.stack f rest)).Subperm
      (e.allocates s.nws ++ recordsBy (f :: rest)) := by
  have hj := (joinedBy_stack hok hl h).map Prod.fst
  rw [List.map_append, List.map_append] at hj
  -- Records that join move from the pending ones to the joined ones.
  have hperm : (f.leaves.map Prod.fst ++ recordsBy (e.stack f rest)).Perm
      (((f.joins e).map Prod.fst ++ pendingBy (e.stack f rest)) ++
        (joinedBy (f :: rest)).map Prod.fst) := by
    calc f.leaves.map Prod.fst ++ recordsBy (e.stack f rest)
        _ = f.leaves.map Prod.fst ++ (pendingBy (e.stack f rest) ++
              (joinedBy (e.stack f rest)).map Prod.fst) := rfl
        _ |>.Perm (pendingBy (e.stack f rest) ++ (f.leaves.map Prod.fst ++
              (joinedBy (e.stack f rest)).map Prod.fst)) := List.perm_append_comm_assoc _ _ _
        _ |>.Perm (pendingBy (e.stack f rest) ++ ((f.joins e).map Prod.fst ++
              (joinedBy (f :: rest)).map Prod.fst)) := hj.append_left _
        _ |>.Perm ((f.joins e).map Prod.fst ++ (pendingBy (e.stack f rest) ++
              (joinedBy (f :: rest)).map Prod.fst)) := List.perm_append_comm_assoc _ _ _
        _ = ((f.joins e).map Prod.fst ++ pendingBy (e.stack f rest)) ++
              (joinedBy (f :: rest)).map Prod.fst := (List.append_assoc _ _ _).symm
  refine hperm.subperm.trans ?_
  rw [recordsBy, ← List.append_assoc]
  exact ((pendingBy_stack hok hl h).append_right _).subperm

/-! ## Owners -/

/-- All records of a call of `nsync_wait_n`. -/
def Frame.owned : Frame τ → List ℕ
  | .waitN w _ => if w.queueing then List.range' w.nw w.waitable.length else []
  | _ => []

/-- A thread owns the records that it uses, and uses each only once. -/
structure RecordsOk (s : State T τ) : Prop where
  owner : ∀ t, ∀ nw ∈ recordsBy (s.stack t), nw < s.nws ∧ (s.nw nw).sem = some t
  nodup : ∀ t, (recordsBy (s.stack t)).Nodup
  owned : ∀ t, ∀ f ∈ s.stack t, ∀ nw ∈ f.owned, nw < s.nws ∧ (s.nw nw).sem = some t

/-- The records that an operation allocates are new. -/
theorem le_of_mem_allocates {k nw : ℕ} (h : nw ∈ e.allocates k) : k ≤ nw := by
  cases e with
  | newRecords j b f' => exact (List.mem_range'_1.mp h).1
  | _ => exact absurd h List.not_mem_nil

theorem mem_allocates {nw : ℕ} (h : nw ∈ e.allocates s.nws) :
    nw < (apply s t rest e).nws ∧ ((apply s t rest e).nw nw).sem = some t := by
  cases e with
  | newRecords k b f' =>
    rw [Eff.allocates, List.mem_range'_1] at h
    rw [nws_apply, nw_apply]
    simp [h.1, h.2]
  | _ => exact absurd h List.not_mem_nil

theorem allocates_nodup : (e.allocates s.nws).Nodup := by
  cases e with
  | newRecords k b f' => exact List.nodup_range'
  | _ => exact List.nodup_nil

/-- A record that exists keeps its owner. -/
theorem sem_apply {nw : ℕ} (h : nw < s.nws) :
    nw < (apply s t rest e).nws ∧ ((apply s t rest e).nw nw).sem = (s.nw nw).sem := by
  rw [nws_apply, nw_apply]
  cases e with
  | newRecords k b f' =>
    refine ⟨by simp only; omega, ?_⟩
    simp only
    rw [if_neg (by omega)]
  | pushWaiter n x f' =>
    refine ⟨h, ?_⟩
    simp only
    split <;> rfl
  | pushCounter n x f' =>
    refine ⟨h, ?_⟩
    simp only
    split <;> rfl
  | removeWaiter n x b f' =>
    refine ⟨h, ?_⟩
    simp only
    split <;> rfl
  | removeCounter n x f' =>
    refine ⟨h, ?_⟩
    simp only
    split <;> rfl
  | setWaiting x b f' =>
    refine ⟨h, ?_⟩
    simp only
    split <;> rfl
  | post x f' =>
    refine ⟨h, ?_⟩
    simp only
    split <;> rfl
  | _ => exact ⟨h, rfl⟩

theorem resume_owned (f : Frame τ) (v : Val τ) : (f.resume v).owned = f.owned := by
  unfold Frame.resume
  repeat' split
  all_goals rfl

theorem place_owned (h : action s t ch f = some e) (hf' : e.place = some f') {nw : ℕ}
    (hnw : nw ∈ f'.owned) : nw ∈ e.allocates s.nws ∨ nw ∈ f.owned := by
  cases f with
  | waitN w p =>
    obtain ⟨e, he, rfl⟩ := Option.map_eq_some_iff.mp h
    cases p <;> simp only [waitN, semaphoreP] at he <;> (repeat' split at he) <;> cases he <;>
      cases hf' <;> first | exact Or.inr hnw | exact Or.inl hnw
  | _ =>
    obtain ⟨q, rfl⟩ := place_of_map h hf'
    exact absurd hnw List.not_mem_nil

theorem recordsOk_initial (value : ℕ → Word) (sem : T → ℕ) (now : τ) :
    RecordsOk (initial value sem now) :=
  ⟨fun _ _ h => absurd h List.not_mem_nil, fun _ => List.nodup_nil,
    fun _ _ h => absurd h List.not_mem_nil⟩

theorem Call.records (c : Call τ) : recordsBy [c.frame] = [] ∧ c.frame.owned = [] := by
  cases c with
  | semWaitWithCancel d cancel => cases cancel <;> exact ⟨rfl, rfl⟩
  | _ => exact ⟨rfl, rfl⟩

theorem RecordsOk.apply (h : RecordsOk s) (hok : StackOk (f :: rest)) (hl : f.LocalsOk)
    (hst : s.stack t = f :: rest) (he : action s t ch f = some e) (hfits : Fits s.now f e) :
    RecordsOk (apply s t rest e) := by
  have hsub : (recordsBy (e.stack f rest)).Subperm (e.allocates s.nws ++ recordsBy (f :: rest)) :=
    (List.sublist_append_right _ _).subperm.trans (recordsBy_stack hok hl he)
  rw [← hst] at hsub
  have hkeep : ∀ u nw, nw < s.nws ∧ (s.nw nw).sem = some u →
      nw < (Wait.apply s t rest e).nws ∧ ((Wait.apply s t rest e).nw nw).sem = some u := by
    rintro u nw ⟨hlt, hsem⟩
    exact ⟨(sem_apply hlt).1, (sem_apply hlt).2.trans hsem⟩
  refine ⟨fun u nw hnw => ?_, fun u => ?_, fun u g hg nw hnw => ?_⟩
  · by_cases hu : u = t
    · subst hu
      rw [stack_apply hst] at hnw
      rcases List.mem_append.mp (hsub.subset hnw) with hnew | hold
      · exact mem_allocates hnew
      · exact hkeep u nw (h.owner u nw hold)
    · rw [stack_apply_ne hu] at hnw
      exact hkeep u nw (h.owner u nw hnw)
  · by_cases hu : u = t
    · subst hu
      rw [stack_apply hst]
      have hnd : (e.allocates s.nws ++ recordsBy (s.stack u)).Nodup := by
        refine List.Nodup.append allocates_nodup (h.nodup u) fun nw hnew hold => ?_
        exact (le_of_mem_allocates hnew).not_gt (h.owner u nw hold).1
      obtain ⟨l, hperm, hsl⟩ := hsub
      exact hperm.nodup_iff.mp (hsl.nodup hnd)
    · rw [stack_apply_ne hu]
      exact h.nodup u
  · have hall : ∀ u, ∀ g ∈ (Wait.apply s t rest e).stack u, ∀ nw ∈ g.owned,
        nw < (Wait.apply s t rest e).nws ∧ ((Wait.apply s t rest e).nw nw).sem = some u := by
      refine forall_frames_apply hst h.owned (fun u g hg nw hnw => hkeep u nw (hg nw hnw)) ?_ ?_ ?_
      · intro f' hf' nw hnw
        rcases place_owned he hf' hnw with hnw | hnw
        · exact mem_allocates hnw
        · exact hkeep t nw (h.owned t f (hst ▸ List.mem_cons_self) nw hnw)
      · intro g hg nw hnw
        cases g with
        | waitN w p => exact absurd rfl (hfits.callee_ne_client hg)
        | _ => exact absurd hnw List.not_mem_nil
      · rintro v c l rfl rfl nw hnw
        rw [resume_owned] at hnw
        exact hkeep t nw (h.owned t c (hst ▸ List.mem_cons_of_mem f List.mem_cons_self) nw hnw)
    exact hall u g hg nw hnw

theorem step_recordsOk {i : T × Act τ} (hs : step i s = some s') (hok : StacksOk s)
    (hl : LocalsOk s) (h : RecordsOk s) : RecordsOk s' := by
  obtain ⟨-, ⟨c, -, hnil, rfl⟩ | ⟨ch, f, rest, e, -, hst, he, rfl⟩ | ⟨-, rfl⟩ | ⟨x, -, -, rfl⟩⟩ :=
    step_cases hs
  · refine ⟨fun u nw hnw => ?_, fun u => ?_, fun u g hg nw hnw => ?_⟩
    · by_cases hu : u = i.1
      · subst hu
        rw [State.setStack_stack_self, c.records.1] at hnw
        exact absurd hnw List.not_mem_nil
      · rw [State.setStack_stack_of_ne _ _ hu] at hnw
        exact h.owner u nw hnw
    · by_cases hu : u = i.1
      · subst hu
        rw [State.setStack_stack_self, c.records.1]
        exact List.nodup_nil
      · rw [State.setStack_stack_of_ne _ _ hu]
        exact h.nodup u
    · by_cases hu : u = i.1
      · subst hu
        rw [State.setStack_stack_self, List.mem_singleton] at hg
        rw [hg, c.records.2] at hnw
        exact absurd hnw List.not_mem_nil
      · rw [State.setStack_stack_of_ne _ _ hu] at hg
        exact h.owned u g hg nw hnw
  · have hf : f ∈ s.stack i.1 := hst ▸ List.mem_cons_self
    exact h.apply (hst ▸ hok.stack i.1) (hl i.1 f hf) hst he (action_fits he (hok.past i.1 f hf))
  · exact ⟨h.owner, h.nodup, h.owned⟩
  · exact ⟨h.owner, h.nodup, h.owned⟩

end

end Nsync.Wait
