import Nsync.Lib.Waitlist
import Nsync.Wait.Ready

/-!
# Notes and counters as objects to wait for

The lists of waiters of notes and counters follow the discipline of waiting for objects
to become ready: a notification and an add that reaches zero wake the records, under the
mutex of the object, and the functions of `nsync_waitable_funcs_s` join and leave.
-/

set_option linter.unusedSectionVars false

namespace Nsync.Wait

open Nsync.Lib

variable {T τ : Type}

/-- What the call is doing to the records of an object. -/
def Frame.waker : Frame τ → Waker Waitable ℕ
  | .notifyChild n _ p =>
      match p with
      | .wake => .waking (.note n)
      | .clear nw => .popped (.note n) nw
      | .post nw => .cleared (.note n) nw
      | _ => .idle
  | .counterAdd c d p =>
      match p with
      | .check old => if old + d = 0#32 then .waking (.counter c) else .idle
      | .wake _ => .waking (.counter c)
      | .clear _ nw => .popped (.counter c) nw
      | .post _ nw => .cleared (.counter c) nw
      | _ => .idle
  | _ => .idle

/-- What a thread is doing to the records of an object. -/
def wakerOf (l : List (Frame τ)) : Waker Waitable ℕ :=
  match l with
  | [] => .idle
  | f :: _ => f.waker

def board [LE τ] [Zero τ] [Top τ] (s : State T τ) : Board T Waitable ℕ where
  list := s.waiters
  ready := s.Ready
  joined := fun t => joinedBy (s.stack t)
  waker := fun t => wakerOf (s.stack t)
  waiting := fun nw => (s.nw nw).waiting
  posts := fun nw => (s.nw nw).posts

section

variable [DecidableEq T] [LinearOrder τ] [OrderTop τ] [Zero τ] {s s' : State T τ} {t u : T}
  {ch : Choice} {f f' g c : Frame τ} {e : Eff τ (Frame τ)} {rest l : List (Frame τ)} {v : Val τ}
  {w : WaitN τ} {p : WaitPc τ} {n nw : ℕ} {a : Waitable}

/-- The facts that every step keeps. -/
structure Safe (s : State T τ) : Prop where
  locks : LocksOk s
  locals : LocalsOk s
  records : RecordsOk s
  waited : WaitedOk s
  hidden : Hidden s
  priv : Private s
  good : (board s).Good

/-! ## Who may touch a list -/

/-- The objects whose mutexes a thread has. -/
def Holds (l : List (Frame τ)) : Waitable → Prop
  | .note n => n ∈ heldBy l
  | .counter c => c ∈ counterHeldBy l

theorem LocksOk.mu (h : LocksOk s) (a : Waitable) : s.mu a = some t ↔ Holds (s.stack t) a := by
  cases a with
  | note n => exact h.notes.owner n t
  | counter c => exact h.counters.owner c t

/-- Records are woken under the mutex of their object. -/
theorem holds_of_waker (h : (wakerOf l).on = some a) : Holds l a := by
  cases l with
  | nil => cases h
  | cons f rest =>
    cases f with
    | notifyChild n parent p =>
      have hheld : n ∈ heldBy (Frame.notifyChild n parent p :: rest) := by
        cases p <;> first | exact List.mem_append_left _ List.mem_cons_self | cases h
      cases p <;> cases h <;> exact hheld
    | counterAdd c d p =>
      have hheld : p ≠ .lock → (∀ r, p ≠ .result r) →
          c ∈ counterHeldBy (Frame.counterAdd c d p :: rest) := by
        intro hl hr
        refine List.mem_append_left _ ?_
        cases p with
        | lock => exact absurd rfl hl
        | result r => exact absurd rfl (hr r)
        | _ => exact List.mem_cons_self
      cases p with
      | check old =>
        simp only [wakerOf, Frame.waker] at h
        split at h
        · cases h
          exact hheld (by simp) (by simp)
        · cases h
      | wake old =>
        cases h
        exact hheld (by simp) (by simp)
      | clear old nw =>
        cases h
        exact hheld (by simp) (by simp)
      | post old nw =>
        cases h
        exact hheld (by simp) (by simp)
      | _ => cases h
    | _ => cases h

/-- Nobody else wakes the records of an object whose mutex a thread has. -/
theorem LocksOk.quiet (h : LocksOk s) (hst : s.stack t = f :: rest) (hf : f.waker = .idle)
    (ha : Holds (s.stack t) a) : (board s).Quiet a := by
  intro u hu
  have hu' : s.mu a = some u := (h.mu a).mpr (holds_of_waker hu)
  rw [(h.mu a).mpr ha] at hu'
  cases hu'
  have hidle : (board s).waker t = .idle := by
    change wakerOf (s.stack t) = .idle
    rw [hst]
    exact hf
  rw [hidle] at hu
  cases hu

/-- A record that no object has seen is unused. -/
theorem RecordsOk.unused (h : RecordsOk s) (hp : nw ∈ pendingBy (s.stack t)) :
    (board s).Unused nw := by
  intro u a hj
  have hmem : nw ∈ (joinedBy (s.stack u)).map Prod.fst := List.mem_map.mpr ⟨(nw, a), hj, rfl⟩
  have hu := (h.owner u nw (List.mem_append_right _ hmem)).2
  rw [(h.owner t nw (List.mem_append_left _ hp)).2] at hu
  cases hu
  exact (List.nodup_append.mp (h.nodup t)).2.2 nw hp nw hmem rfl

theorem mem_joinedFrom {k : ℕ} (h : (nw, a) ∈ w.joinedFrom k) : a ∈ w.waitable := by
  obtain ⟨j, -, hj⟩ := List.mem_filterMap.mp h
  obtain ⟨b, hb, heq⟩ := Option.map_eq_some_iff.mp hj
  cases heq
  exact List.mem_of_getElem? hb

theorem joined_awaits (h : (nw, Waitable.note n) ∈ f.joined) : n ∈ f.awaits := by
  cases f with
  | noteEnqueue m x p => cases p <;> simp_all [Frame.joined, Frame.awaits]
  | noteDequeue m x b p => cases p <;> simp_all [Frame.joined, Frame.awaits]
  | semWait d cancel p => cases cancel <;> cases p <;> simp_all [Frame.joined, Frame.awaits]
  | counterEnqueue m x p => cases p <;> simp_all [Frame.joined]
  | counterDequeue m x p => cases p <;> simp_all [Frame.joined]
  | waitN w p =>
    have hmem : Waitable.note n ∈ w.waitable → n ∈ noteIds w.waitable :=
      fun hm => List.mem_filterMap.mpr ⟨_, hm, rfl⟩
    cases p <;> first | exact hmem (mem_joinedFrom h) | exact absurd h List.not_mem_nil
  | _ => exact absurd h List.not_mem_nil

theorem joined_waited {k : ℕ} (h : (nw, Waitable.counter k) ∈ f.joined) (hf : f.Waited s) :
    (s.counter k).waited = true := by
  cases f with
  | noteEnqueue m x p => cases p <;> simp_all [Frame.joined]
  | noteDequeue m x b p => cases p <;> simp_all [Frame.joined]
  | semWait d cancel p => cases cancel <;> cases p <;> simp_all [Frame.joined]
  | counterEnqueue m x p => cases p <;> simp_all [Frame.joined, Frame.Waited]
  | counterDequeue m x p => cases p <;> simp_all [Frame.joined, Frame.Waited]
  | waitN w p =>
    cases p <;> first | exact hf k (mem_joinedFrom h) | exact absurd h List.not_mem_nil
  | _ => exact absurd h List.not_mem_nil

theorem Safe.joined_counter {k : ℕ} (h : Safe s)
    (hj : (nw, Waitable.counter k) ∈ joinedBy (s.stack t)) : (s.counter k).waited = true := by
  obtain ⟨f, hf, hj⟩ := List.mem_flatMap.mp hj
  exact joined_waited hj (h.waited t f hf)

/-! ## The fields after an operation -/

theorem joined_apply {L : List (ℕ × Waitable)} (hst : s.stack t = f :: rest)
    (hL : (joinedBy (e.stack f rest)).Perm L) (u : T) :
    (joinedBy ((apply s t rest e).stack u)).Perm (Function.update (board s).joined t L u) := by
  by_cases hu : u = t
  · subst hu
    rw [stack_apply hst, Function.update_self]
    exact hL
  · rw [stack_apply_ne hu, Function.update_of_ne hu]
    exact List.Perm.refl _

theorem waker_apply {x : Waker Waitable ℕ} (hst : s.stack t = f :: rest)
    (hx : wakerOf (e.stack f rest) = x) (u : T) :
    wakerOf ((apply s t rest e).stack u) = Function.update (board s).waker t x u := by
  by_cases hu : u = t
  · subst hu
    rw [stack_apply hst, Function.update_self]
    exact hx
  · rw [stack_apply_ne hu, Function.update_of_ne hu]
    rfl

theorem waker_self (hst : s.stack t = f :: rest) : (board s).waker t = f.waker := by
  change wakerOf (s.stack t) = f.waker
  rw [hst]
  rfl

/-- The joined records stay when none joins or leaves. -/
theorem Safe.joined_still (h : Safe s) (hst : s.stack t = f :: rest)
    (he : action s t ch f = some e) (hjoins : f.joins e = []) (hleaves : f.leaves = []) (u : T) :
    (joinedBy ((apply s t rest e).stack u)).Perm (joinedBy (s.stack u)) := by
  have hf : f ∈ s.stack t := hst ▸ List.mem_cons_self
  have hperm := joinedBy_stack (hst ▸ h.locks.stack.stack t) (h.locals t f hf) he
  rw [hjoins, hleaves, List.nil_append, List.nil_append, ← hst] at hperm
  have := joined_apply hst hperm u
  by_cases hu : u = t
  · subst hu
    rwa [Function.update_self] at this
  · rwa [Function.update_of_ne hu] at this

/-- An operation that touches neither lists nor flags nor values. -/
def Eff.Still : Eff τ (Frame τ) → Prop
  | .setNotified _ _ | .popWaiter _ _ | .pushWaiter _ _ _ | .removeWaiter _ _ _ _
  | .setWaiting _ _ _ | .post _ _ | .setValue _ _ _ | .popCounter _ _ | .pushCounter _ _ _
  | .removeCounter _ _ _ => False
  | _ => True

/-- Which calls touch a list, a flag or a value, make or link a note, or take a token; a
call does not begin with waking records. -/
def Eff.Allowed (f : Frame τ) : Eff τ (Frame τ) → Prop
  | .call _ g => g.waker = .idle
  | .malloc _ _ => ∃ q d, f = .noteNew q d .malloc
  | .take _ => (∃ d cancel p, f = .semWait d cancel p) ∨ ∃ w p, f = .waitN w p
  | .link m _ _ _ => f.creating = some m
  | .setNotified m _ => ∃ q, f = .notifyChild m q .store
  | .popWaiter m _ => ∃ q, f = .notifyChild m q .wake
  | .pushWaiter m nw _ => f = .noteEnqueue m nw .link ∨ ∃ d, f = .semWait d (some m) (.link nw)
  | .removeWaiter m nw _ _ =>
      (∃ a, f = .noteDequeue m nw a .unlink) ∨ ∃ d o x, f = .semWait d (some m) (.unlink nw o x)
  | .setWaiting nw _ _ => (∃ m q, f = .notifyChild m q (.clear nw)) ∨
      (∃ c d old, f = .counterAdd c d (.clear old nw)) ∨ (∃ m, f = .noteEnqueue m nw .link) ∨
      ∃ c, f = .counterEnqueue c nw .link
  | .post nw _ => (∃ m q, f = .notifyChild m q (.post nw)) ∨
      ∃ c d old, f = .counterAdd c d (.post old nw)
  | .setValue c v _ => ∃ d old, f = .counterAdd c d (.cas old) ∧ v = old + d
  | .popCounter c _ => ∃ d old, f = .counterAdd c d (.wake old)
  | .pushCounter c nw _ => f = .counterEnqueue c nw .link
  | .removeCounter c nw _ => f = .counterDequeue c nw .unlink
  | _ => True

theorem action_allowed (h : action s t ch f = some e) : e.Allowed f := by
  cases f with
  | notifyChild n parent p =>
      obtain ⟨e, he, rfl⟩ := Option.map_eq_some_iff.mp h
      cases p <;> simp only [noteNotifyChild, lockNote] at he <;> (repeat' split at he) <;>
        cases he <;> first | trivial | simp [Eff.map, Eff.Allowed]
  | notify n p =>
      obtain ⟨e, he, rfl⟩ := Option.map_eq_some_iff.mp h
      cases p <;> simp only [notify, lockNote, tryLockNote] at he <;> (repeat' split at he) <;>
        cases he <;> trivial
  | deadline n a p =>
      obtain ⟨e, he, rfl⟩ := Option.map_eq_some_iff.mp h
      cases p <;> simp only [noteNotifiedDeadline, lockNote] at he <;> (repeat' split at he) <;>
        cases he <;> trivial
  | isNotified n p =>
      obtain ⟨e, he, rfl⟩ := Option.map_eq_some_iff.mp h
      cases p <;> cases he <;> trivial
  | noteNotify n p =>
      obtain ⟨e, he, rfl⟩ := Option.map_eq_some_iff.mp h
      cases p <;> cases he <;> trivial
  | noteNew parent d p =>
      obtain ⟨e, he, rfl⟩ := Option.map_eq_some_iff.mp h
      cases parent <;> cases p <;>
        simp only [noteNew, lockNote, Option.bind_none, Option.bind_some, Option.map_none,
          Option.map_some] at he <;> (repeat' split at he) <;> cases he <;>
        first | trivial | simp [Eff.map, Eff.Allowed]
  | noteFree n p =>
      obtain ⟨e, he, rfl⟩ := Option.map_eq_some_iff.mp h
      cases p <;> simp only [noteFree, lockNote, tryLockNote] at he <;> (repeat' split at he) <;>
        cases he <;> trivial
  | counterAdd c d p =>
      obtain ⟨e, he, rfl⟩ := Option.map_eq_some_iff.mp h
      cases p <;> simp only [counterAdd, lockCounterMu] at he <;> (repeat' split at he) <;>
        cases he <;> first | trivial | simp [Eff.map, Eff.Allowed]
  | counterReady c p =>
      obtain ⟨e, he, rfl⟩ := Option.map_eq_some_iff.mp h
      cases p <;> cases he <;> trivial
  | noteEnqueue n nw p =>
      obtain ⟨e, he, rfl⟩ := Option.map_eq_some_iff.mp h
      cases p <;> simp only [noteEnqueue, lockNote] at he <;> (repeat' split at he) <;>
        cases he <;> first | trivial | simp [Eff.map, Eff.Allowed]
  | noteDequeue n nw a p =>
      obtain ⟨e, he, rfl⟩ := Option.map_eq_some_iff.mp h
      cases p <;> simp only [noteDequeue, lockNote] at he <;> (repeat' split at he) <;>
        cases he <;> first | trivial | simp [Eff.map, Eff.Allowed]
  | counterEnqueue c nw p =>
      obtain ⟨e, he, rfl⟩ := Option.map_eq_some_iff.mp h
      cases p <;> simp only [counterEnqueue, lockCounterMu] at he <;> (repeat' split at he) <;>
        cases he <;> first | trivial | simp [Eff.map, Eff.Allowed]
  | counterDequeue c nw p =>
      obtain ⟨e, he, rfl⟩ := Option.map_eq_some_iff.mp h
      cases p <;> simp only [counterDequeue, lockCounterMu] at he <;> (repeat' split at he) <;>
        cases he <;> trivial
  | semWait d cancel p =>
      obtain ⟨e, he, rfl⟩ := Option.map_eq_some_iff.mp h
      cases cancel <;> cases p <;>
        simp only [semWaitWithCancel, lockNote, semaphoreP, Option.bind_none, Option.bind_some,
          Option.map_none, Option.map_some] at he <;> (repeat' split at he) <;>
        cases he <;> first | trivial | simp [Eff.map, Eff.Allowed]
  | waitN w p =>
      obtain ⟨e, he, rfl⟩ := Option.map_eq_some_iff.mp h
      cases p <;> simp only [waitN, semaphoreP] at he <;> (repeat' split at he) <;>
        cases he <;> first | trivial | (cases ‹Waitable› <;> rfl) | simp [Eff.map, Eff.Allowed]

/-- Some call waits for the object, if it is a note. -/
def Awaited (s : State T τ) : Waitable → Prop
  | .note n => ∃ u, ∃ f ∈ s.stack u, n ∈ f.awaits
  | .counter _ => True

theorem Safe.awaited_note (h : Safe s) (hn : Awaited s (.note n)) :
    n < s.notes ∧ ∀ u, ∀ f ∈ s.stack u, f.creating ≠ some n := by
  obtain ⟨t, f, hf, hn⟩ := hn
  exact ⟨h.locks.ids.known t f hf n (awaits_subset_ids f hn),
    fun u g hg hcr => h.hidden u g hg n hcr t f hf hn⟩

theorem awaited_of_joined (hj : (nw, a) ∈ joinedBy (s.stack u)) : Awaited s a := by
  obtain ⟨f, hf, hj⟩ := List.mem_flatMap.mp hj
  cases a with
  | note n => exact ⟨u, f, hf, joined_awaits hj⟩
  | counter k => trivial

/-- The operation makes nothing ready. -/
def Eff.Calm : Eff τ (Frame τ) → Prop
  | .setNotified _ _ | .setValue _ _ _ => False
  | _ => True

/-- Readiness where somebody waits. -/
theorem Safe.ready_iff (h : Safe s) (hst : s.stack t = f :: rest) (he : action s t ch f = some e)
    (hcalm : e.Calm) (ha : Awaited s a) : (apply s t rest e).Ready a ↔ s.Ready a := by
  cases a with
  | note n =>
    obtain ⟨hn, hcr⟩ := h.awaited_note ha
    have hleave : e.LeavesTime n := by
      cases e with
      | setNotified m f' => exact hcalm.elim
      | link m q x f' =>
        rintro rfl
        exact hcr t f (hst ▸ List.mem_cons_self) (action_allowed he)
      | _ => trivial
    change ((apply s t rest e).note n).notifiedTime ≤ 0 ↔ (s.note n).notifiedTime ≤ 0
    rw [notifiedTime_apply hn hleave]
  | counter k =>
    change ((apply s t rest e).counter k).value = 0#32 ↔ (s.counter k).value = 0#32
    rw [value_apply]
    cases e with
    | setValue c v f' => exact hcalm.elim
    | _ => exact Iff.rfl

/-- What is being woken stays ready. -/
theorem Safe.ready_waking (h : Safe s) (hval : ∀ c v f', e ≠ .setValue c v f')
    (hw : ((board s).waker u).on = some a) : (apply s t rest e).Ready a := by
  have hr : s.Ready a := h.good.ready u a hw
  cases a with
  | note n => exact notifiedTime_apply_le (h.locks.ids.held_lt (holds_of_waker hw)) hr
  | counter k =>
    change ((apply s t rest e).counter k).value = 0#32
    rw [value_apply]
    cases e with
    | setValue c v f' => exact absurd rfl (hval c v f')
    | _ => exact hr

theorem Safe.list_note_nil (h : Safe s) (hn : s.notes ≤ n) : (s.note n).waiters = [] := by
  refine List.eq_nil_iff_forall_not_mem.mpr fun nw hnw => ?_
  obtain ⟨u, hu⟩ := h.good.listed nw (.note n) hnw
  exact hn.not_gt (h.awaited_note (awaited_of_joined hu)).1

/-- The state after an operation, seen as a board. -/
theorem Safe.like_of (h : Safe s) (hst : s.stack t = f :: rest) (he : action s t ch f = some e)
    (hcalm : e.Calm) {B : Board T Waitable ℕ}
    (hlist : ∀ b, (apply s t rest e).waiters b = B.list b) (hready : B.ready = s.Ready)
    (hjoined : ∀ u, (joinedBy ((apply s t rest e).stack u)).Perm (B.joined u))
    (hawaited : ∀ u x b, (x, b) ∈ B.joined u → Awaited s b)
    (hwaker : ∀ u, wakerOf ((apply s t rest e).stack u) = B.waker u)
    (hwaking : ∀ u b, (B.waker u).on = some b → ((board s).waker u).on = some b)
    (hwaiting : ∀ u x b, (x, b) ∈ B.joined u → ((apply s t rest e).nw x).waiting = B.waiting x)
    (hposts : ∀ u x b, (x, b) ∈ B.joined u → ((apply s t rest e).nw x).posts = B.posts x) :
    Board.Like B (board (apply s t rest e)) := by
  refine ⟨hlist, fun u x b hj => ?_, fun u b hb => ?_, hjoined, hwaker, hwaiting, hposts⟩
  · rw [hready]
    exact h.ready_iff hst he hcalm (hawaited u x b hj)
  · exact h.ready_waking (fun c v f' he => by rw [he] at hcalm; exact hcalm) (hwaking u b hb)

/-- Nothing happens to the records in use. -/
theorem Safe.moves_still (h : Safe s) (hst : s.stack t = f :: rest) (he : action s t ch f = some e)
    (hstill : e.Still) (hjoins : f.joins e = []) (hleaves : f.leaves = [])
    (hwaker : wakerOf (e.stack f rest) = f.waker) : (board s).Moves (board (apply s t rest e)) := by
  have hcalm : e.Calm := by cases e <;> trivial
  have hrec : ∀ u nw a, (nw, a) ∈ (board s).joined u → (apply s t rest e).nw nw = s.nw nw := by
    intro u nw a hj
    have hmem : nw ∈ (joinedBy (s.stack u)).map Prod.fst := List.mem_map.mpr ⟨(nw, a), hj, rfl⟩
    have hnw := (h.records.owner u nw (List.mem_append_right _ hmem)).1
    rw [nw_apply]
    cases e with
    | newRecords k b f' =>
      simp only
      rw [if_neg (by omega)]
    | _ => first | rfl | exact hstill.elim
  refine Board.Move.still.moves (h.like_of hst he hcalm (fun a => ?_) rfl
    (h.joined_still hst he hjoins hleaves)
    (fun u x b hj => awaited_of_joined hj) (fun u => ?_) (fun _ _ hb => hb) ?_ ?_)
  · cases a with
    | note n =>
      change ((apply s t rest e).note n).waiters = (s.note n).waiters
      rw [waiters_apply]
      cases e with
      | malloc d f' =>
        simp only
        split
        · next hn => rw [h.list_note_nil hn.ge]
        · rfl
      | _ => first | rfl | exact hstill.elim
    | counter k =>
      change ((apply s t rest e).counter k).waiters = (s.counter k).waiters
      rw [counter_waiters_apply]
      cases e <;> first | rfl | exact hstill.elim
  · have := waker_apply hst hwaker u
    rwa [← waker_self hst, Function.update_eq_self] at this
  · intro u nw a hj
    exact congrArg Nw.waiting (hrec u nw a hj)
  · intro u nw a hj
    exact congrArg Nw.posts (hrec u nw a hj)

/-! ## Joining and leaving -/

theorem waiters_note {L : List ℕ}
    (hn : ∀ m, (s'.note m).waiters = if m = n then L else (s.note m).waiters)
    (hc : ∀ k, (s'.counter k).waiters = (s.counter k).waiters) (b : Waitable) :
    s'.waiters b = Function.update s.waiters (.note n) L b := by
  cases b with
  | note m =>
    by_cases hm : m = n
    · subst hm
      rw [Function.update_self]
      exact (hn m).trans (if_pos rfl)
    · rw [Function.update_of_ne fun heq => hm (Waitable.note.inj heq)]
      exact (hn m).trans (if_neg hm)
  | counter k =>
    rw [Function.update_of_ne (by simp)]
    exact hc k

theorem waiters_counter {L : List ℕ}
    (hn : ∀ m, (s'.note m).waiters = (s.note m).waiters)
    (hc : ∀ k, (s'.counter k).waiters = if k = n then L else (s.counter k).waiters)
    (b : Waitable) : s'.waiters b = Function.update s.waiters (.counter n) L b := by
  cases b with
  | note m =>
    rw [Function.update_of_ne (by simp)]
    exact hn m
  | counter k =>
    by_cases hk : k = n
    · subst hk
      rw [Function.update_self]
      exact (hc k).trans (if_pos rfl)
    · rw [Function.update_of_ne fun heq => hk (Waitable.counter.inj heq)]
      exact (hc k).trans (if_neg hk)

/-- The list of an object after an operation. -/
theorem waiters_push : (apply s t rest (.pushWaiter n nw f')).waiters =
      Function.update s.waiters (.note n) (s.waiters (.note n) ++ [nw]) ∧
    (apply s t rest (.pushCounter n nw f')).waiters =
      Function.update s.waiters (.counter n) (s.waiters (.counter n) ++ [nw]) := by
  constructor <;> funext b
  · refine waiters_note (fun m => ?_) (fun k => counter_waiters_apply _ _ _ _ _) b
    rw [waiters_apply]
    split <;> simp_all [State.waiters]
  · refine waiters_counter (fun m => waiters_apply _ _ _ _ _) (fun k => ?_) b
    rw [counter_waiters_apply]
    split <;> simp_all [State.waiters]

/-- What the three kinds of steps that join or leave have in common. -/
structure Visits (s : State T τ) (t : T) (ch : Choice) (f : Frame τ) (rest : List (Frame τ))
    (e : Eff τ (Frame τ)) (a : Waitable) : Prop where
  stack : s.stack t = f :: rest
  action : action s t ch f = some e
  calm : e.Calm
  awaited : Awaited s a
  waker : wakerOf (e.stack f rest) = .idle
  idle : f.waker = .idle

theorem Visits.waker_eq (hv : Visits s t ch f rest e a) (u : T) :
    wakerOf ((apply s t rest e).stack u) = (board s).waker u := by
  have := waker_apply hv.stack (hv.waker.trans hv.idle.symm) u
  rwa [← waker_self hv.stack, Function.update_eq_self] at this

theorem Visits.awaited_joined (hv : Visits s t ch f rest e a) {x : ℕ} {b : Waitable}
    (hj : (x, b) ∈ Function.update (board s).joined t ((nw, a) :: (board s).joined t) u) :
    Awaited s b := by
  rcases Board.mem_joined_update.mp hj with ⟨-, -, rfl⟩ | hj
  · exact hv.awaited
  · exact awaited_of_joined hj

theorem Safe.joined_join (h : Safe s) (hv : Visits s t ch f rest e a)
    (hjoins : f.joins e = [(nw, a)]) (hleaves : f.leaves = []) (u : T) :
    (joinedBy ((apply s t rest e).stack u)).Perm
      (Function.update (board s).joined t ((nw, a) :: (board s).joined t) u) := by
  have hf : f ∈ s.stack t := hv.stack ▸ List.mem_cons_self
  have hperm := joinedBy_stack (hv.stack ▸ h.locks.stack.stack t) (h.locals t f hf) hv.action
  rw [hjoins, hleaves, List.nil_append, ← hv.stack] at hperm
  exact joined_apply hv.stack hperm u

theorem Safe.unused (h : Safe s) (hst : s.stack t = f :: rest) (hp : nw ∈ f.pending) :
    (board s).Unused nw := by
  refine h.records.unused (t := t) ?_
  rw [hst]
  exact List.mem_append_left _ hp

theorem Safe.moves_push (h : Safe s) (hv : Visits s t ch f rest e a)
    (hlist : (apply s t rest e).waiters = Function.update s.waiters a (s.waiters a ++ [nw]))
    (hnw : ∀ x, (apply s t rest e).nw x =
      if x = nw then { s.nw x with waiting := true, posts := 0 } else s.nw x)
    (hr : ¬ s.Ready a) (hp : nw ∈ f.pending) (hjoins : f.joins e = [(nw, a)])
    (hleaves : f.leaves = []) : (board s).Moves (board (apply s t rest e)) := by
  have hmove : (board s).Move ((board s).push t a nw) := .push t a nw hr (h.unused hv.stack hp)
  refine hmove.moves (h.like_of hv.stack hv.action hv.calm (fun b => congrFun hlist b) rfl
    (h.joined_join hv hjoins hleaves) (fun u x b hj => hv.awaited_joined hj) hv.waker_eq
    (fun _ _ hb => hb) (fun _ x _ _ => ?_) fun _ x _ _ => ?_)
  · rw [hnw]
    change _ = Function.update (board s).waiting nw true x
    rw [Function.update_apply]
    split <;> rfl
  · rw [hnw]
    change _ = Function.update (board s).posts nw 0 x
    rw [Function.update_apply]
    split <;> rfl

theorem Safe.moves_pass (h : Safe s) (hv : Visits s t ch f rest e a)
    (hlist : (apply s t rest e).waiters = s.waiters)
    (hnw : ∀ x, (apply s t rest e).nw x =
      if x = nw then { s.nw x with waiting := false } else s.nw x)
    (hr : s.Ready a) (hp : nw ∈ f.pending) (hjoins : f.joins e = [(nw, a)])
    (hleaves : f.leaves = []) : (board s).Moves (board (apply s t rest e)) := by
  have hmove : (board s).Move ((board s).pass t a nw) := .pass t a nw hr (h.unused hv.stack hp)
  refine hmove.moves (h.like_of hv.stack hv.action hv.calm (fun b => congrFun hlist b) rfl
    (h.joined_join hv hjoins hleaves) (fun u x b hj => hv.awaited_joined hj) hv.waker_eq
    (fun _ _ hb => hb) (fun _ x _ _ => ?_) fun _ x _ _ => ?_)
  · rw [hnw]
    change _ = Function.update (board s).waiting nw false x
    rw [Function.update_apply]
    split <;> rfl
  · rw [hnw]
    split <;> rfl

theorem Safe.moves_leave (h : Safe s) (hv : Visits s t ch f rest e a) {b : Bool}
    (hlist : (apply s t rest e).waiters = Function.update s.waiters a ((s.waiters a).erase nw))
    (hnw : ∀ x, (apply s t rest e).nw x = if x = nw then { s.nw x with waiting := b } else s.nw x)
    (hq : (board s).Quiet a) (hjoins : f.joins e = []) (hleaves : f.leaves = [(nw, a)]) :
    (board s).Moves (board (apply s t rest e)) := by
  have hf : f ∈ s.stack t := hv.stack ▸ List.mem_cons_self
  have hperm := joinedBy_stack (hv.stack ▸ h.locks.stack.stack t) (h.locals t f hf) hv.action
  rw [hjoins, hleaves, List.nil_append, ← hv.stack] at hperm
  have hmem : (nw, a) ∈ joinedBy (s.stack t) := hperm.mem_iff.mp List.mem_cons_self
  have hmove : (board s).Move ((board s).leave t a nw b) := .leave t a nw b hmem hq
  have herase : (joinedBy (e.stack f rest)).Perm ((joinedBy (s.stack t)).erase (nw, a)) := by
    have := hperm.erase (nw, a)
    rwa [List.singleton_append, List.erase_cons_head] at this
  have hsub : ∀ u x y, (x, y) ∈ ((board s).leave t a nw b).joined u →
      (x, y) ∈ (board s).joined u := by
    intro u x y hxy
    change (x, y) ∈ Function.update (board s).joined t _ u at hxy
    by_cases hu : u = t
    · subst hu
      rw [Function.update_self] at hxy
      exact List.mem_of_mem_erase hxy
    · rwa [Function.update_of_ne hu] at hxy
  refine hmove.moves (h.like_of hv.stack hv.action hv.calm (fun b => congrFun hlist b) rfl
    (joined_apply hv.stack herase) (fun u x b hj => awaited_of_joined (hsub u x b hj)) hv.waker_eq
    (fun _ _ hb => hb) (fun _ x _ _ => ?_) fun _ x _ _ => ?_)
  · rw [hnw]
    change _ = Function.update (board s).waiting nw b x
    rw [Function.update_apply]
    split <;> rfl
  · rw [hnw]
    split <;> rfl

/-! ## Waking -/

/-- What the steps of a waker have in common. -/
structure Wakes (s : State T τ) (t : T) (ch : Choice) (f : Frame τ) (rest : List (Frame τ))
    (e : Eff τ (Frame τ)) : Prop where
  stack : s.stack t = f :: rest
  action : action s t ch f = some e
  joins : f.joins e = []
  leaves : f.leaves = []

theorem Safe.moves_rouse (h : Safe s) (hw : Wakes s t ch f rest e)
    (hlist : (apply s t rest e).waiters = s.waiters) (hnw : (apply s t rest e).nw = s.nw)
    (hready : ∀ b, Awaited s b → ((apply s t rest e).Ready b ↔ b = a ∨ s.Ready b))
    (ha : (apply s t rest e).Ready a)
    (hkeep : ∀ u b, ((board s).waker u).on = some b → (apply s t rest e).Ready b)
    (hq : (board s).Quiet a) (hidle : f.waker = .idle)
    (hwaker : wakerOf (e.stack f rest) = .waking a) :
    (board s).Moves (board (apply s t rest e)) := by
  have hmove : (board s).Move ((board s).rouse t a) :=
    .rouse t a ((waker_self hw.stack).trans hidle) hq
  refine hmove.moves ⟨fun b => congrFun hlist b, fun u x b hj => ?_, fun u b hb => ?_,
    h.joined_still hw.stack hw.action hw.joins hw.leaves, waker_apply hw.stack hwaker,
    fun _ x _ _ => ?_, fun _ x _ _ => ?_⟩
  · exact hready b (awaited_of_joined hj)
  · change (Function.update (board s).waker t (.waking a) u).on = some b at hb
    by_cases hu : u = t
    · subst hu
      rw [Function.update_self] at hb
      cases hb
      exact ha
    · rw [Function.update_of_ne hu] at hb
      exact hkeep u b hb
  · exact congrArg Nw.waiting (congrFun hnw x)
  · exact congrArg Nw.posts (congrFun hnw x)

theorem Safe.moves_pop (h : Safe s) (hw : Wakes s t ch f rest e) (hcalm : e.Calm)
    (hlist : (apply s t rest e).waiters = Function.update s.waiters a (s.waiters a).tail)
    (hnw : (apply s t rest e).nw = s.nw) (hhead : (s.waiters a).head? = some nw)
    (hf : f.waker = .waking a) (hwaker : wakerOf (e.stack f rest) = .popped a nw) :
    (board s).Moves (board (apply s t rest e)) := by
  have ht : (board s).waker t = .waking a := (waker_self hw.stack).trans hf
  have hmove : (board s).Move ((board s).pop t a nw) := .pop t a nw ht hhead
  refine hmove.moves (h.like_of hw.stack hw.action hcalm (fun b => congrFun hlist b) rfl
    (h.joined_still hw.stack hw.action hw.joins hw.leaves) (fun _ _ _ hj => awaited_of_joined hj)
    (waker_apply hw.stack hwaker) (fun u b hb => ?_) (fun _ x _ _ => ?_) fun _ x _ _ => ?_)
  · have hon := Board.on_update (b := board s) (t := t) (w := .popped a nw) (by rw [ht]; rfl) u
    exact hon ▸ hb
  · exact congrArg Nw.waiting (congrFun hnw x)
  · exact congrArg Nw.posts (congrFun hnw x)

theorem Safe.moves_clear (h : Safe s) (hw : Wakes s t ch f rest (.setWaiting nw false f'))
    (hf : f.waker = .popped a nw) (hwaker : f'.waker = .cleared a nw) :
    (board s).Moves (board (apply s t rest (.setWaiting nw false f'))) := by
  have ht : (board s).waker t = .popped a nw := (waker_self hw.stack).trans hf
  have hmove : (board s).Move ((board s).clear t a nw) := .clear t a nw ht
  refine hmove.moves (h.like_of hw.stack hw.action trivial (fun b => ?_) rfl
    (h.joined_still hw.stack hw.action hw.joins hw.leaves) (fun _ _ _ hj => awaited_of_joined hj)
    (waker_apply hw.stack hwaker) (fun u b hb => ?_) (fun _ x _ _ => ?_) fun _ x _ _ => ?_)
  · cases b <;> rfl
  · have hon := Board.on_update (b := board s) (t := t) (w := .cleared a nw) (by rw [ht]; rfl) u
    exact hon ▸ hb
  · rw [nw_apply]
    change _ = Function.update (board s).waiting nw false x
    rw [Function.update_apply]
    simp only
    split <;> rfl
  · rw [nw_apply]
    simp only
    split <;> rfl

theorem Safe.moves_post (h : Safe s) (hw : Wakes s t ch f rest (.post nw f'))
    (hf : f.waker = .cleared a nw) (hwaker : f'.waker = .waking a) :
    (board s).Moves (board (apply s t rest (.post nw f'))) := by
  have ht : (board s).waker t = .cleared a nw := (waker_self hw.stack).trans hf
  have hmove : (board s).Move ((board s).post t a nw) := .post t a nw ht
  refine hmove.moves (h.like_of hw.stack hw.action trivial (fun b => ?_) rfl
    (h.joined_still hw.stack hw.action hw.joins hw.leaves) (fun _ _ _ hj => awaited_of_joined hj)
    (waker_apply hw.stack hwaker) (fun u b hb => ?_) (fun _ x _ _ => ?_) fun _ x _ _ => ?_)
  · cases b <;> rfl
  · have hon := Board.on_update (b := board s) (t := t) (w := .waking a) (by rw [ht]; rfl) u
    exact hon ▸ hb
  · rw [nw_apply]
    simp only
    split <;> rfl
  · rw [nw_apply]
    change _ = Function.update (board s).posts nw ((board s).posts nw + 1) x
    rw [Function.update_apply]
    simp only
    split
    · next hx =>
      subst hx
      rfl
    · rfl

theorem Safe.moves_finish (h : Safe s) (hw : Wakes s t ch f rest (.goto f'))
    (hnil : s.waiters a = []) (hf : f.waker = .waking a) (hwaker : f'.waker = .idle) :
    (board s).Moves (board (apply s t rest (.goto f'))) := by
  have ht : (board s).waker t = .waking a := (waker_self hw.stack).trans hf
  have hmove : (board s).Move ((board s).finish t) := .finish t a ht hnil
  refine hmove.moves (h.like_of hw.stack hw.action trivial (fun b => ?_) rfl
    (h.joined_still hw.stack hw.action hw.joins hw.leaves) (fun _ _ _ hj => awaited_of_joined hj)
    (waker_apply hw.stack hwaker) (fun u b hb => ?_) (fun _ _ _ _ => rfl) fun _ _ _ _ => rfl)
  · cases b <;> rfl
  · change (Function.update (board s).waker t .idle u).on = some b at hb
    by_cases hu : u = t
    · subst hu
      rw [Function.update_self] at hb
      cases hb
    · rwa [Function.update_of_ne hu] at hb

theorem resume_waker {k : Fn τ} (h : c.Calls k) (v : Val τ) : (c.resume v).waker = .idle := by
  cases c with
  | notifyChild n parent p =>
    cases p with
    | called child next => rfl
    | _ => exact h.elim
  | counterAdd m d p => exact h.elim
  | _ =>
    unfold Frame.resume
    repeat' split
    all_goals rfl

/-- A thread that wakes no records goes on waking none. -/
theorem waker_stack (hok : StackOk (f :: rest)) (he : action s t ch f = some e)
    (hf : f.waker = .idle) (hplace : ∀ f', e.place = some f' → f'.waker = .idle) :
    wakerOf (e.stack f rest) = .idle := by
  obtain ⟨f', hf', hst⟩ | ⟨v, rfl, hst⟩ | ⟨rfl, hst⟩ := e.stack_cases f rest
  · rw [hst]
    cases e with
    | call q g => exact action_allowed he
    | _ => exact hplace f' hf'
  · rw [hst]
    cases rest with
    | nil => rfl
    | cons c l => exact resume_waker hok.1 v
  · rw [hst]
    exact hf

theorem Safe.moves_plain (h : Safe s) (hst : s.stack t = f :: rest) (he : action s t ch f = some e)
    (hstill : e.Still) (hjoins : f.joins e = []) (hleaves : f.leaves = []) (hf : f.waker = .idle)
    (hplace : ∀ f', e.place = some f' → f'.waker = .idle) :
    (board s).Moves (board (apply s t rest e)) := by
  refine h.moves_still hst he hstill hjoins hleaves ?_
  rw [hf]
  exact waker_stack (hst ▸ h.locks.stack.stack t) he hf hplace

end

end Nsync.Wait
