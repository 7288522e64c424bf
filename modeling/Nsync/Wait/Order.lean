import Nsync.Wait.Effect
import Nsync.Wait.Locks

/-!
# Notes cannot deadlock on their locks

A note has a larger number than its parent, whoever its parent is at the moment:
a new note gets the largest number so far, and adoption replaces a parent by the
parent of the parent.  A thread that waits for the lock of a note only has locks of
notes with smaller numbers.
-/

set_option linter.unusedSectionVars false

namespace Nsync.Wait

open Nsync.Lib

variable {T τ : Type}

/-! ## Client rules -/

/-- The notes among the objects. -/
def noteIds (ws : List Waitable) : List ℕ :=
  ws.filterMap fun
    | .note n => some n
    | .counter _ => none

/-- The notes that a call is applied to. -/
def Call.notes : Call τ → List ℕ
  | .noteNew parent _ => parent.toList
  | .noteNotify n | .noteIsNotified n | .noteFree n => [n]
  | .counterAdd _ _ => []
  | .semWaitWithCancel _ cancel => cancel.toList
  | .waitN _ _ ws => noteIds ws

/-- The notes that a call in progress is applied to, if a client made it. -/
def Frame.notes : Frame τ → List ℕ
  | .isNotified n _ | .noteNotify n _ | .noteFree n _ => [n]
  | .noteNew parent _ _ => parent.toList
  | .semWait _ cancel _ => cancel.toList
  | .waitN w _ => noteIds w.waitable
  | _ => []

/-- The note that `nsync_note_new` has not returned yet. -/
def Frame.creating : Frame τ → Option ℕ
  | .noteNew _ _ p =>
      match p with
      | .call n | .called n | .lockParent n | .link n | .unlockParent n => some n
      | .result n => n
      | .malloc => none
  | _ => none

/-- A client may apply an operation to the note: `nsync_note_new` has returned it, and
it has not been passed to `nsync_note_free`. -/
structure Usable (s : State T τ) (n : ℕ) : Prop where
  allocated : n < s.notes
  created : ∀ u, ∀ f ∈ s.stack u, f.creating ≠ some n
  unfreed : (s.note n).freed = false
  unfreeing : ∀ u p, .noteFree n p ∉ s.stack u

/-- What clients keep to: no operation is applied to a note concurrently with or after
its `nsync_note_free`, nor before the note was returned to somebody. -/
def Proper (i : T × Act τ) (s : State T τ) : Prop :=
  match i.2 with
  | .call c => (∀ n ∈ c.notes, Usable s n) ∧
      ∀ n, c = .noteFree n → ∀ u, ∀ f ∈ s.stack u, n ∉ f.notes
  | _ => True

/-! ## Numbers -/

/-- The notes that a call mentions. -/
def Frame.ids : Frame τ → List ℕ
  | .notifyChild n parent p => n :: (parent.toList ++ match p with
      | .loop q => q.toList
      | .lockChild c q | .check c q | .called c q | .unlockChild c q => c :: q.toList
      | _ => [])
  | .notify n p => n :: match p with
      | .tryParent q | .unlockSelf q | .lockParent q | .relockSelf q | .unlockParent q => [q]
      | .call q | .called q => q.toList
      | _ => []
  | .deadline n _ _ | .isNotified n _ | .noteNotify n _ => [n]
  | .noteNew parent _ p => parent.toList ++ match p with
      | .call n | .called n | .lockParent n | .link n | .unlockParent n => [n]
      | .result n => n.toList
      | .malloc => []
  | .noteFree n p => n :: match p with
      | .tryParent q | .unlockSelf q | .lockParent q | .relockSelf q | .unlockParent q => [q]
      | .first q | .wait q | .waiting q | .detach q => q.toList
      | .loop q x => q.toList ++ x.toList
      | .lockChild q c x | .adopt q c x | .unlockChild q c x => q.toList ++ c :: x.toList
      | _ => []
  | .noteEnqueue n _ _ | .noteDequeue n _ _ _ => [n]
  | .semWait _ cancel _ => cancel.toList
  | .waitN w _ => noteIds w.waitable
  | .counterAdd _ _ _ | .counterReady _ _ | .counterEnqueue _ _ _ | .counterDequeue _ _ _ => []

/-- The parents that a call mentions have smaller numbers and the children larger
ones. -/
def Frame.Ordered : Frame τ → Prop
  | .notifyChild n parent p => (∀ q, parent = some q → q < n) ∧ match p with
      | .loop x => ∀ c, x = some c → n < c
      | .lockChild c x | .check c x | .called c x | .unlockChild c x =>
          n < c ∧ ∀ d, x = some d → n < d
      | _ => True
  | .notify n p =>
      match p with
      | .tryParent q | .unlockSelf q | .lockParent q | .relockSelf q | .unlockParent q => q < n
      | .call q | .called q => ∀ x, q = some x → x < n
      | _ => True
  | .noteNew parent _ p =>
      match p with
      | .call n | .called n | .lockParent n | .link n | .unlockParent n =>
          ∀ q, parent = some q → q < n
      | _ => True
  | .noteFree n p =>
      match p with
      | .tryParent q | .unlockSelf q | .lockParent q | .relockSelf q | .unlockParent q => q < n
      | .first q | .wait q | .waiting q | .detach q => ∀ x, q = some x → x < n
      | .loop q x => (∀ y, q = some y → y < n) ∧ ∀ c, x = some c → n < c
      | .lockChild q c x | .adopt q c x | .unlockChild q c x =>
          (∀ y, q = some y → y < n) ∧ n < c ∧ ∀ d, x = some d → n < d
      | _ => True
  | _ => True

/-- The numbers in use. -/
structure IdsOk (s : State T τ) : Prop where
  known : ∀ t, ∀ f ∈ s.stack t, ∀ n ∈ f.ids, n < s.notes
  ordered : ∀ t, ∀ f ∈ s.stack t, f.Ordered
  parent : ∀ n m, (s.note n).parent = some m → m < n ∧ n < s.notes
  children : ∀ n, ∀ c ∈ (s.note n).children, n < c ∧ c < s.notes

section

variable [DecidableEq T] [LinearOrder τ] [OrderTop τ] [Zero τ] {s s' : State T τ} {t u : T}
  {ch : Choice} {f f' g : Frame τ} {e : Eff τ (Frame τ)} {rest l : List (Frame τ)} {v : Val τ}
  {n m : ℕ}

/-- The notes that a call mentions exist and are in order. -/
structure Numbered (k : ℕ) (f : Frame τ) : Prop where
  known : ∀ n ∈ f.ids, n < k
  ordered : f.Ordered

theorem Numbered.mono {k k' : ℕ} (h : Numbered k f) (hk : k ≤ k') : Numbered k' f :=
  ⟨fun n hn => (h.known n hn).trans_le hk, h.ordered⟩

theorem resume_ids (f : Frame τ) (v : Val τ) : (f.resume v).ids ⊆ f.ids := by
  unfold Frame.resume
  repeat' split
  all_goals simp only [Frame.ids, List.Subset.refl]
  all_goals intro n hn
  all_goals grind

theorem Numbered.resume {k : ℕ} (h : Numbered k f) (v : Val τ) : Numbered k (f.resume v) := by
  refine ⟨fun n hn => h.known n (resume_ids f v hn), ?_⟩
  have hf := h.ordered
  revert hf
  unfold Frame.resume
  repeat' split
  all_goals simp only [Frame.Ordered]
  all_goals grind

theorem nextIn_mem {l : List ℕ} {a b : ℕ} (h : nextIn l a = some b) : b ∈ l := by
  have h1 : b ∈ (l.dropWhile (· ≠ a)).tail := List.mem_of_mem_head? h
  exact (List.dropWhile_sublist _).mem (List.mem_of_mem_tail h1)

/-- The notes that an operation links are in order. -/
def Eff.Links (k : ℕ) : Eff τ (Frame τ) → Prop
  | .adopt n c p _ => n < c ∧ c < k ∧ ∀ q, p = some q → q < n
  | .link n p _ _ => p < n ∧ n < k
  | _ => True

/-- The number of notes that an operation makes. -/
def Eff.fresh {P : Type} : Eff τ P → ℕ
  | .malloc _ _ => 1
  | _ => 0

theorem notes_apply : (apply s t rest e).notes = s.notes + e.fresh := by
  cases e with
  | adopt n c p f' => cases p <;> rfl
  | link n p x f' =>
      simp only [apply]
      split <;> rfl
  | _ => rfl

/-- The calls after an operation mention known notes in order, and so does the
operation. -/
structure Eff.Numbered (k : ℕ) (e : Eff τ (Frame τ)) : Prop where
  place : ∀ f', e.place = some f' → Wait.Numbered (k + e.fresh) f'
  callee : ∀ g, e.callee = some g → Wait.Numbered k g
  links : e.Links k

theorem mem_ids_of_waitable {w : WaitN τ} {j : ℕ} (h : w.waitable[j]? = some (.note n)) :
    n ∈ noteIds w.waitable :=
  List.mem_filterMap.mpr ⟨_, List.mem_of_getElem? h, rfl⟩

theorem notifyChild_numbered {parent : Option ℕ} {p : ChildPc} (hi : IdsOk s)
    (h : action s t ch (.notifyChild n parent p) = some e)
    (hf : Numbered s.notes (.notifyChild n parent p : Frame τ)) : e.Numbered s.notes := by
  obtain ⟨hk, ho⟩ := hf
  have hc := hi.children n
  have hhead : ∀ c, (s.note n).children.head? = some c → n < c ∧ c < s.notes :=
    fun c hh => hc c (List.mem_of_mem_head? hh)
  have hnext : ∀ a c, nextIn (s.note n).children a = some c → n < c ∧ c < s.notes :=
    fun a c hh => hc c (nextIn_mem hh)
  obtain ⟨e, he, rfl⟩ := Option.map_eq_some_iff.mp h
  cases p <;> simp only [noteNotifyChild, lockNote] at he <;> (repeat' split at he) <;>
    cases he <;> simp only [Frame.ids, Frame.Ordered] at hk ho <;>
    refine ⟨?_, ?_, ?_⟩ <;>
    simp only [Eff.map, Eff.place, Eff.callee, Eff.Links, Eff.fresh, Option.some.injEq,
      forall_eq', reduceCtorEq, false_implies, implies_true] <;>
    (try refine ⟨?_, ?_⟩) <;> (try simp only [Frame.ids, Frame.Ordered]) <;> grind

theorem notify_numbered {p : NotifyPc} (hi : IdsOk s)
    (h : action s t ch (.notify n p) = some e)
    (hf : Numbered s.notes (.notify n p : Frame τ)) : e.Numbered s.notes := by
  obtain ⟨hk, ho⟩ := hf
  have hp := hi.parent n
  obtain ⟨e, he, rfl⟩ := Option.map_eq_some_iff.mp h
  cases p <;> simp only [notify, lockNote, tryLockNote] at he <;> (repeat' split at he) <;>
    cases he <;> simp only [Frame.ids, Frame.Ordered] at hk ho <;>
    refine ⟨?_, ?_, ?_⟩ <;>
    simp only [Eff.map, Eff.place, Eff.callee, Eff.Links, Eff.fresh, Option.some.injEq,
      forall_eq', reduceCtorEq, false_implies, implies_true] <;>
    (try refine ⟨?_, ?_⟩) <;> (try simp only [Frame.ids, Frame.Ordered]) <;> grind

theorem noteNew_numbered {parent : Option ℕ} {d : τ} {p : NewPc}
    (h : action s t ch (.noteNew parent d p) = some e)
    (hf : Numbered s.notes (.noteNew parent d p : Frame τ)) : e.Numbered s.notes := by
  obtain ⟨hk, ho⟩ := hf
  obtain ⟨e, he, rfl⟩ := Option.map_eq_some_iff.mp h
  cases parent <;> cases p <;>
    simp only [noteNew, lockNote, Option.bind_none, Option.bind_some, Option.map_none,
      Option.map_some] at he <;> (repeat' split at he) <;>
    cases he <;> simp only [Frame.ids, Frame.Ordered, Option.toList_none, Option.toList_some, List.cons_append,
      List.nil_append, List.forall_mem_cons] at hk ho <;>
    refine ⟨?_, ?_, ?_⟩ <;>
    simp only [Eff.map, Eff.place, Eff.callee, Eff.Links, Eff.fresh, Option.some.injEq,
      forall_eq', reduceCtorEq, false_implies, implies_true] <;>
    (try refine ⟨?_, ?_⟩) <;> (try simp only [Frame.ids, Frame.Ordered]) <;> grind

theorem noteFree_numbered {p : FreePc} (hi : IdsOk s)
    (h : action s t ch (.noteFree n p) = some e)
    (hf : Numbered s.notes (.noteFree n p : Frame τ)) : e.Numbered s.notes := by
  obtain ⟨hk, ho⟩ := hf
  have hp := hi.parent n
  have hc := hi.children n
  have hhead : ∀ c, (s.note n).children.head? = some c → n < c ∧ c < s.notes :=
    fun c hh => hc c (List.mem_of_mem_head? hh)
  have hnext : ∀ a c, nextIn (s.note n).children a = some c → n < c ∧ c < s.notes :=
    fun a c hh => hc c (nextIn_mem hh)
  obtain ⟨e, he, rfl⟩ := Option.map_eq_some_iff.mp h
  cases p <;> simp only [noteFree, lockNote, tryLockNote] at he <;> (repeat' split at he) <;>
    cases he <;> simp only [Frame.ids, Frame.Ordered] at hk ho <;>
    refine ⟨?_, ?_, ?_⟩ <;>
    simp only [Eff.map, Eff.place, Eff.callee, Eff.Links, Eff.fresh, Option.some.injEq,
      forall_eq', reduceCtorEq, false_implies, implies_true] <;>
    (try refine ⟨?_, ?_⟩) <;> (try simp only [Frame.ids, Frame.Ordered]) <;> grind

theorem Waitable.numbered_calls {w : WaitN τ} {j : ℕ} {a : Waitable}
    (hk : ∀ n ∈ noteIds w.waitable, n < m) (ha : w.waitable[j]? = some a) (nw : ℕ) (now : τ) :
    Numbered m (a.readyTime now) ∧ Numbered m (a.enqueue nw : Frame τ) ∧
      Numbered m (a.dequeue nw now) := by
  cases a with
  | note n =>
      have hn : ∀ x ∈ [n], x < m :=
        fun x hx => List.mem_singleton.mp hx ▸ hk n (mem_ids_of_waitable ha)
      exact ⟨⟨hn, trivial⟩, ⟨hn, trivial⟩, ⟨hn, trivial⟩⟩
  | counter c =>
      have hn : ∀ x ∈ ([] : List ℕ), x < m := fun x hx => by cases hx
      exact ⟨⟨hn, trivial⟩, ⟨hn, trivial⟩, ⟨hn, trivial⟩⟩

theorem waitN_numbered {w : WaitN τ} {p : WaitPc τ}
    (h : action s t ch (.waitN w p) = some e)
    (hf : Numbered s.notes (.waitN w p : Frame τ)) : e.Numbered s.notes := by
  have hk : ∀ n ∈ noteIds w.waitable, n < s.notes := hf.known
  obtain ⟨e, he, rfl⟩ := Option.map_eq_some_iff.mp h
  refine ⟨fun f' hf' => ?_, fun g hg => ?_, ?_⟩
  · rw [Eff.place_map] at hf'
    obtain ⟨q, hq, rfl⟩ := Option.map_eq_some_iff.mp hf'
    have hw : q.1.waitable = w.waitable := by
      cases p <;> simp only [waitN, semaphoreP] at he <;> (repeat' split at he) <;>
        cases he <;> cases hq <;> rfl
    refine ⟨fun n hn => ?_, trivial⟩
    have := hk n (hw ▸ hn)
    omega
  · rw [Eff.callee_map] at hg
    cases e with
    | call q g' =>
        cases hg
        rcases waitN_calls he with ⟨v, rfl, rfl, hv, rfl⟩ | ⟨v, rfl, rfl, hv, rfl⟩ |
          ⟨j, m, v, rfl, rfl, hv, rfl⟩ | ⟨j, v, rfl, -, rfl, hv, rfl⟩
        · exact (Waitable.numbered_calls hk hv 0 s.now).1
        · exact (Waitable.numbered_calls hk hv _ s.now).2.1
        · exact (Waitable.numbered_calls hk hv 0 s.now).1
        · exact (Waitable.numbered_calls hk hv _ _).2.2
    | _ => cases hg
  · cases p <;> simp only [waitN, semaphoreP] at he <;> (repeat' split at he) <;>
      cases he <;> trivial

theorem Eff.Numbered.of_callee {P : Type} {k : P → Frame τ} {e : Eff τ P}
    (hk : ∀ q, Wait.Numbered m (k q)) (hg : ∀ g, e.callee = some g → Wait.Numbered m g)
    (hl : (e.map k).Links m) : (e.map k).Numbered m := by
  refine ⟨fun f' hf' => ?_, fun g h => hg g (Eff.callee_map k e ▸ h), hl⟩
  rw [Eff.place_map] at hf'
  obtain ⟨q, -, rfl⟩ := Option.map_eq_some_iff.mp hf'
  exact (hk q).mono (Nat.le_add_right m _)

theorem action_numbered (hi : IdsOk s) (h : action s t ch f = some e)
    (hf : Numbered s.notes f) : e.Numbered s.notes := by
  cases f with
  | notifyChild n parent p => exact notifyChild_numbered hi h hf
  | notify n p => exact notify_numbered hi h hf
  | noteNew parent d p => exact noteNew_numbered h hf
  | noteFree n p => exact noteFree_numbered hi h hf
  | waitN w p => exact waitN_numbered h hf
  | deadline n a p =>
      obtain ⟨e, he, rfl⟩ := Option.map_eq_some_iff.mp h
      cases p <;> simp only [noteNotifiedDeadline, lockNote] at he <;> (repeat' split at he) <;>
        cases he <;>
        exact .of_callee (fun _ => ⟨hf.known, trivial⟩)
          (fun _ hg => by cases hg <;> exact ⟨hf.known, trivial⟩) trivial
  | isNotified n p =>
      obtain ⟨e, he, rfl⟩ := Option.map_eq_some_iff.mp h
      cases p <;> cases he <;>
        exact .of_callee (fun _ => ⟨hf.known, trivial⟩)
          (fun _ hg => by cases hg <;> exact ⟨hf.known, trivial⟩) trivial
  | noteNotify n p =>
      obtain ⟨e, he, rfl⟩ := Option.map_eq_some_iff.mp h
      cases p <;> cases he <;>
        exact .of_callee (fun _ => ⟨hf.known, trivial⟩)
          (fun _ hg => by cases hg <;> exact ⟨hf.known, trivial⟩) trivial
  | noteEnqueue n nw p =>
      obtain ⟨e, he, rfl⟩ := Option.map_eq_some_iff.mp h
      cases p <;> simp only [noteEnqueue, lockNote] at he <;> (repeat' split at he) <;>
        cases he <;>
        exact .of_callee (fun _ => ⟨hf.known, trivial⟩) (fun _ hg => by cases hg) trivial
  | noteDequeue n nw a p =>
      obtain ⟨e, he, rfl⟩ := Option.map_eq_some_iff.mp h
      cases p <;> simp only [noteDequeue, lockNote] at he <;> (repeat' split at he) <;>
        cases he <;>
        exact .of_callee (fun _ => ⟨hf.known, trivial⟩)
          (fun _ hg => by cases hg <;> exact ⟨hf.known, trivial⟩) trivial
  | counterAdd c d p =>
      obtain ⟨e, he, rfl⟩ := Option.map_eq_some_iff.mp h
      cases p <;> simp only [counterAdd, lockCounterMu] at he <;> (repeat' split at he) <;>
        cases he <;>
        exact .of_callee (fun _ => ⟨hf.known, trivial⟩) (fun _ hg => by cases hg) trivial
  | counterReady c p =>
      obtain ⟨e, he, rfl⟩ := Option.map_eq_some_iff.mp h
      cases p <;> cases he <;>
        exact .of_callee (fun _ => ⟨hf.known, trivial⟩) (fun _ hg => by cases hg) trivial
  | counterEnqueue c nw p =>
      obtain ⟨e, he, rfl⟩ := Option.map_eq_some_iff.mp h
      cases p <;> simp only [counterEnqueue, lockCounterMu] at he <;> (repeat' split at he) <;>
        cases he <;>
        exact .of_callee (fun _ => ⟨hf.known, trivial⟩) (fun _ hg => by cases hg) trivial
  | counterDequeue c nw p =>
      obtain ⟨e, he, rfl⟩ := Option.map_eq_some_iff.mp h
      cases p <;> simp only [counterDequeue, lockCounterMu] at he <;> (repeat' split at he) <;>
        cases he <;>
        exact .of_callee (fun _ => ⟨hf.known, trivial⟩) (fun _ hg => by cases hg) trivial
  | semWait d cancel p =>
      obtain ⟨e, he, rfl⟩ := Option.map_eq_some_iff.mp h
      cases cancel <;> cases p <;>
        simp only [semWaitWithCancel, lockNote, semaphoreP, Option.bind_none, Option.bind_some,
          Option.map_none, Option.map_some] at he <;> (repeat' split at he) <;>
        cases he <;>
        exact .of_callee (fun _ => ⟨hf.known, trivial⟩)
          (fun _ hg => by cases hg <;> exact ⟨hf.known, trivial⟩) trivial

theorem parent_lt (hi : IdsOk s) (hl : e.Links s.notes)
    (h : ((apply s t rest e).note n).parent = some m) : m < n ∧ n < s.notes + e.fresh := by
  have hp := hi.parent n m
  rw [parent_apply] at h
  cases e <;> simp only [Eff.fresh, Eff.Links] at h hl ⊢ <;> grind

theorem lt_child (hi : IdsOk s) (hl : e.Links s.notes)
    (h : m ∈ ((apply s t rest e).note n).children) : n < m ∧ m < s.notes + e.fresh := by
  have hp := hi.children n m
  rw [children_apply] at h
  cases e <;> simp only [Eff.fresh, Eff.Links] at h hl ⊢ <;>
    grind [List.mem_of_mem_erase]

theorem stack_numbered (he : e.Numbered m) (hst : ∀ g ∈ f :: rest, Numbered m g) :
    ∀ g ∈ e.stack f rest, Numbered (m + e.fresh) g := by
  intro g hg
  have hmono : ∀ g : Frame τ, Numbered m g → Numbered (m + e.fresh) g :=
    fun g hg => hg.mono (Nat.le_add_right m _)
  have hrest : ∀ g ∈ rest, Numbered (m + e.fresh) g :=
    fun g hg => hmono g (hst g (List.mem_cons_of_mem _ hg))
  have hreplace : ∀ f', e.place = some f' → ∀ g ∈ f' :: rest, Numbered (m + e.fresh) g := by
    intro f' hf' g hg
    rcases List.mem_cons.mp hg with rfl | hg
    · exact he.place g hf'
    · exact hrest g hg
  cases e with
  | ret v =>
      cases rest with
      | nil => cases hg
      | cons c rest =>
          rcases List.mem_cons.mp hg with rfl | hg
          · exact (hrest c List.mem_cons_self).resume v
          · exact hrest g (List.mem_cons_of_mem _ hg)
  | crash => exact hst g hg
  | call f' g' =>
      rcases List.mem_cons.mp hg with rfl | hg
      · exact he.callee g rfl
      · exact hreplace f' rfl g hg
  | _ => exact hreplace _ rfl g hg

theorem IdsOk.numbered (hi : IdsOk s) (hf : f ∈ s.stack t) : Numbered s.notes f :=
  ⟨hi.known t f hf, hi.ordered t f hf⟩

theorem idsOk_initial (value : ℕ → Word) (sem : T → ℕ) (now : τ) :
    IdsOk (initial value sem now) where
  known t f hf := by cases hf
  ordered t f hf := by cases hf
  parent n m h := by cases h
  children n c h := by cases h

/-- Calls are applied to notes that exist. -/
def Known (i : T × Act τ) (s : State T τ) : Prop :=
  ∀ c, i.2 = .call c → ∀ n ∈ c.notes, n < s.notes

theorem Proper.known {i : T × Act τ} (h : Proper i s) : Known i s := by
  intro c hc n hn
  rw [Proper, hc] at h
  exact (h.1 n hn).allocated

theorem Call.numbered (c : Call τ) (h : ∀ n ∈ c.notes, n < m) : Numbered m c.frame := by
  cases c with
  | noteNew parent d =>
      refine ⟨fun n hn => ?_, trivial⟩
      rw [Call.frame, Frame.ids, List.append_nil] at hn
      exact h n hn
  | counterAdd c d => exact ⟨fun n hn => (by cases hn), trivial⟩
  | _ => exact ⟨h, trivial⟩

theorem step_idsOk {i : T × Act τ} (hi : IdsOk s) (hk : Known i s) (hs : step i s = some s') :
    IdsOk s' := by
  obtain ⟨-, ⟨c, hc, -, rfl⟩ | ⟨ch, f, rest, e, -, hst, he, rfl⟩ | ⟨-, rfl⟩ | ⟨x, -, hx, rfl⟩⟩ :=
    step_cases hs
  · have hall : ∀ u, ∀ f ∈ (s.setStack i.1 [c.frame]).stack u, Numbered s.notes f := by
      intro u f hf
      by_cases hu : u = i.1
      · simp only [State.setStack, hu, Function.update_self, List.mem_singleton] at hf
        exact hf ▸ c.numbered (hk c hc)
      · simp only [State.setStack, Function.update_of_ne hu] at hf
        exact hi.numbered hf
    exact ⟨fun u f hf => (hall u f hf).known, fun u f hf => (hall u f hf).ordered, hi.parent,
      hi.children⟩
  · have hnum := action_numbered hi he (hi.numbered (by rw [hst]; exact List.mem_cons_self))
    have hall : ∀ u, ∀ g ∈ (apply s i.1 rest e).stack u,
        Numbered (apply s i.1 rest e).notes g := by
      intro u g hg
      rw [notes_apply]
      by_cases hu : u = i.1
      · rw [hu, stack_apply hst] at hg
        exact stack_numbered hnum (fun g hg => hi.numbered (hst ▸ hg)) g hg
      · rw [stack_apply_ne hu] at hg
        exact (hi.numbered hg).mono (Nat.le_add_right _ _)
    refine ⟨fun u g hg => (hall u g hg).known, fun u g hg => (hall u g hg).ordered,
      fun n m h => ?_, fun n c h => ?_⟩
    · rw [notes_apply]
      exact parent_lt hi hnum.links h
    · rw [notes_apply]
      exact lt_child hi hnum.links h
  · exact ⟨hi.known, hi.ordered, hi.parent, hi.children⟩
  · exact ⟨hi.known, hi.ordered, hi.parent, hi.children⟩

end

end Nsync.Wait
