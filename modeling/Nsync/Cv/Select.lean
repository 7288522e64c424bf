import Nsync.Lib.Dll
import Nsync.Mu.Step

/-!
# Whom a signal and a broadcast select

The part of `nsync_cv_signal` and `nsync_cv_broadcast` that holds the spinlock of
the condition variable, on a queue with every kind of waiter: of an `nsync_mu` in
either mode, of a lock of another type, and of `nsync_wait_n`.
-/

namespace Nsync.Cv

open Nsync.Lib Nsync.Mu

variable {α : Type}

/-- The fields of a queued waiter that decide its selection: whether
`NSYNC_WAITER_FLAG_MUCV` is set, and `l_type`, which is null for a lock that is not
an `nsync_mu`.  A waiter without the flag belongs to `nsync_wait_n`. -/
structure Queued where
  mucv : Bool
  lType : Option Mode
  deriving DecidableEq, Repr

/-- A thread that waits with an `nsync_mu` held in reader mode. -/
def Queued.nativeReader (w : Queued) : Bool := w.mucv && decide (w.lType = some .reader)

/-- A condition variable with its queue, and the remove counts of the waiters. -/
structure Var (α : Type) where
  word : Word
  links : Links α
  waiters : Option α
  removeCount : α → Word

/-- The variables of the two functions; `toWake` is `to_wake_list`. -/
structure Sel (α : Type) where
  links : Links α
  waiters : Option α
  toWake : Option α
  removeCount : α → Word
  allReaders : Bool
  wokeWriter : Bool
  p : Option α

variable [DecidableEq α]

/-- Move `x` from the queue to `to_wake_list`, and count the removal. -/
def Sel.take (nw : α → Queued) (s : Sel α) (x : α) : Sel α :=
  let r := s.links.removeFrom s.waiters x
  let m := r.1.makeLast s.toWake x
  { s with
    links := m.1
    waiters := r.2
    toWake := m.2
    removeCount :=
      if (nw x).mucv then Function.update s.removeCount x (s.removeCount x + 1#32)
      else s.removeCount }

/-- One round of the loop of `nsync_cv_signal`. -/
def signalRound (nw : α → Queued) (s : Sel α) (x : α) : Sel α :=
  let next := s.links.nextIn s.waiters x
  if (nw x).nativeReader then { s.take nw x with p := next }
  else if s.wokeWriter = false then
    { s.take nw x with wokeWriter := true, allReaders := false, p := next }
  else { s with p := next }

/-- One round of the loop of `nsync_cv_broadcast`. -/
def broadcastRound (nw : α → Queued) (s : Sel α) (x : α) : Sel α :=
  let next := s.links.nextIn s.waiters x
  { s.take nw x with allReaders := s.allReaders && (nw x).nativeReader, p := next }

/-- At most `n` rounds of a loop that ends when `p` is null. -/
def loop (round : Sel α → α → Sel α) : ℕ → Sel α → Sel α
  | 0, s => s
  | n + 1, s =>
      match s.p with
      | none => s
      | some x => loop round n (round s x)

/-- The variables when the spinlock has been acquired. -/
def Var.sel (c : Var α) (allReaders : Bool) : Sel α :=
  ⟨c.links, c.waiters, none, c.removeCount, allReaders, false, none⟩

/-- The condition variable when the spinlock is released, and the variables. -/
def Sel.release (s : Sel α) (word : Word) : Var α × Sel α :=
  (⟨word, s.links, s.waiters, s.removeCount⟩, s)

/-- `nsync_cv_signal` up to its call of `wake_waiters`, with at most `n` rounds of
its loop. -/
def nsyncCvSignal (nw : α → Queued) (n : ℕ) (c : Var α) : Var α × Sel α :=
  if c.word &&& cvNonEmpty = 0#32 then (c, c.sel false)
  else
    match c.links.firstOf c.waiters with
    | none => (c.sel false).release c.word
    | some first =>
        let s := (c.sel false).take nw first
        let s' :=
          if (nw first).nativeReader then
            loop (signalRound nw) n
              { s with allReaders := true, p := s.links.firstOf s.waiters }
          else s
        s'.release (if s'.waiters = none then c.word &&& ~~~cvNonEmpty else c.word)

/-- `nsync_cv_broadcast` up to its call of `wake_waiters`. -/
def nsyncCvBroadcast (nw : α → Queued) (n : ℕ) (c : Var α) : Var α × Sel α :=
  if c.word &&& cvNonEmpty = 0#32 then (c, c.sel true)
  else
    (loop (broadcastRound nw) n
      { c.sel true with p := c.links.firstOf c.waiters }).release 0#32

/-! ## Moving a waiter -/

/-- The queue visits `K` and `to_wake_list` visits `W`. -/
structure SelInv (s : Sel α) (W K : List α) : Prop where
  waiters : Denotes s.links s.waiters K
  toWake : Denotes s.links s.toWake W
  nodup : (W ++ K).Nodup

/-- The remove counts when the waiters in `l` have been removed. -/
def bump (nw : α → Queued) (rc : α → Word) (l : List α) : α → Word :=
  fun x => if x ∈ l ∧ (nw x).mucv then rc x + 1#32 else rc x

section

variable {nw : α → Queued} {s : Sel α} {W K R l : List α} {x : α} {n : ℕ}

omit [DecidableEq α] in
theorem SelInv.congr {s' : Sel α} (h : SelInv s W K) (hl : s'.links = s.links)
    (hw : s'.waiters = s.waiters) (ht : s'.toWake = s.toWake) : SelInv s' W K :=
  ⟨by rw [hl, hw]; exact h.waiters, by rw [hl, ht]; exact h.toWake, h.nodup⟩

theorem SelInv.take (nw : α → Queued) (h : SelInv s W (K ++ x :: R)) :
    SelInv (s.take nw x) (W ++ [x]) (K ++ R) := by
  obtain ⟨hndW, hndK, hdisj⟩ := List.nodup_append.mp h.nodup
  obtain ⟨-, hndx, hd⟩ := List.nodup_append.mp hndK
  have hxK : x ∉ K := fun hm => hd x hm x (by simp) rfl
  have hxR : x ∉ R := (List.nodup_cons.mp hndx).1
  have hxW : x ∉ W := fun hm => hdisj x hm x (by simp) rfl
  have hmem : x ∈ K ++ x :: R := by simp
  have herase : (K ++ x :: R).erase x = K ++ R := by
    rw [List.erase_append_right _ hxK, List.erase_cons_head]
  have hrem := h.waiters.removeFrom hmem
  rw [herase] at hrem
  have hW : Denotes (s.links.unlink x) s.toWake W := by
    refine h.toWake.congr (fun y hy => ?_) fun y hy => ?_
    · exact (h.waiters.unlink_outside hmem fun hyK => hdisj y hy y hyK rfl).1
    · exact (h.waiters.unlink_outside hmem fun hyK => hdisj y hy y hyK rfl).2
  have halone : (s.links.unlink x).Alone x := Denotes.alone_unlink
  refine ⟨?_, hW.makeLast halone hxW, ?_⟩
  · refine hrem.congr (fun y hy => ?_) fun y hy => ?_
    all_goals
      have hyK : y ∈ K ++ x :: R := by
        simp only [List.mem_append, List.mem_cons] at hy ⊢
        tauto
      have hyW : y ∉ W := fun hm => hdisj y hm y hyK rfl
      have hyx : y ≠ x := by
        rintro rfl
        simp [hxK, hxR] at hy
    · exact (hW.makeLast_outside halone hyW hyx).1
    · exact (hW.makeLast_outside halone hyW hyx).2
  · have hperm : (W ++ [x] ++ (K ++ R)).Perm (W ++ (K ++ x :: R)) := by
      rw [List.append_assoc, List.singleton_append]
      exact List.Perm.append_left W (List.perm_middle).symm
    exact hperm.nodup_iff.mpr h.nodup

theorem take_removeCount : (s.take nw x).removeCount = bump nw s.removeCount [x] := by
  funext y
  simp only [Sel.take, bump, List.mem_singleton]
  by_cases hx : (nw x).mucv <;> by_cases hy : y = x <;> simp [hx, hy]

omit [DecidableEq α] in
theorem bump_nil [DecidableEq α] {rc : α → Word} : bump nw rc [] = rc := by
  funext y
  simp [bump]

theorem bump_cons {rc : α → Word} (hx : x ∉ l) : bump nw (bump nw rc [x]) l = bump nw rc (x :: l) := by
  funext y
  by_cases hy : y = x
  · subst hy
    simp [bump, hx]
  · simp [bump, hy]

end

/-! ## The loop of a signal -/

/-- The waiters that the loop of `nsync_cv_signal` removes; `woke` is
`woke_writer`. -/
def picked (reader : α → Bool) : Bool → List α → List α
  | _, [] => []
  | woke, x :: l =>
      if reader x then x :: picked reader woke l
      else if woke then picked reader woke l
      else x :: picked reader true l

/-- The waiters that the loop leaves in the queue. -/
def passed (reader : α → Bool) : Bool → List α → List α
  | _, [] => []
  | woke, x :: l =>
      if reader x then passed reader woke l
      else if woke then x :: passed reader woke l
      else passed reader true l

section

variable {nw : α → Queued} {s : Sel α} {W K R : List α} {x : α} {n : ℕ} {reader : α → Bool}

omit [DecidableEq α] in
theorem picked_sublist (woke : Bool) (l : List α) : (picked reader woke l).Sublist l := by
  induction l generalizing woke with
  | nil => exact List.Sublist.refl []
  | cons x l ih =>
      simp only [picked]
      split_ifs
      · exact (ih woke).cons_cons x
      · exact (ih woke).cons x
      · exact (ih true).cons_cons x

/-- A loop that starts in `s` has ended in `s'`, with `W` on `to_wake_list` and `K`
in the queue, and has removed the waiters in `P`. -/
structure Ends (nw : α → Queued) (s s' : Sel α) (W K P : List α) (allReaders : Bool) : Prop where
  inv : SelInv s' W K
  p : s'.p = none
  counts : s'.removeCount = bump nw s.removeCount P
  allReaders : s'.allReaders = allReaders

/-- A round that takes `x` comes before the others. -/
theorem Ends.took {s₁ s' : Sel α} {P : List α} {b : Bool}
    (h : Ends nw s₁ s' (W ++ [x] ++ P) K P b) (hcount : s₁.removeCount = (s.take nw x).removeCount)
    (hx : x ∉ P) : Ends nw s s' (W ++ x :: P) K (x :: P) b := by
  refine ⟨by simpa using h.inv, h.p, ?_, h.allReaders⟩
  rw [h.counts, hcount, take_removeCount, bump_cons hx]

theorem signal_loop (nw : α → Queued) (hinv : SelInv s W (K ++ R)) (hp : s.p = R.head?) (hn : R.length ≤ n) :
    Ends nw s (loop (signalRound nw) n s)
      (W ++ picked (fun x => (nw x).nativeReader) s.wokeWriter R)
      (K ++ passed (fun x => (nw x).nativeReader) s.wokeWriter R)
      (picked (fun x => (nw x).nativeReader) s.wokeWriter R)
      (s.allReaders && (s.wokeWriter || R.all fun x => (nw x).nativeReader)) := by
  induction R generalizing s W K n with
  | nil =>
      have hp : s.p = none := hp
      have hloop : loop (signalRound nw) n s = s := by
        cases n <;> simp [loop, hp]
      rw [hloop]
      exact ⟨by simpa [picked, passed] using hinv, hp, bump_nil.symm, by simp⟩
  | cons x R ih =>
      obtain ⟨n, rfl⟩ : ∃ n', n = n' + 1 := ⟨n - 1, by simp at hn; omega⟩
      have hp : s.p = some x := hp
      have hn : R.length ≤ n := by simpa using hn
      have hnext : s.links.nextIn s.waiters x = R.head? := hinv.waiters.nextIn
      have hxR : x ∉ R := by
        have hndK := (List.nodup_append.mp hinv.nodup).2.1
        exact (List.nodup_cons.mp (List.nodup_append.mp hndK).2.1).1
      have hloop : loop (signalRound nw) (n + 1) s = loop (signalRound nw) n (signalRound nw s x) := by
        simp [loop, hp]
      rw [hloop]
      cases hr : (nw x).nativeReader with
      | true =>
          have hround : signalRound nw s x = { s.take nw x with p := R.head? } := by
            simp [signalRound, hr, hnext]
          have h := ih (s := { s.take nw x with p := R.head? })
            ((hinv.take nw).congr rfl rfl rfl) rfl hn
          rw [hround]
          simpa [picked, passed, hr, Sel.take] using
            h.took rfl fun hm => hxR ((picked_sublist _ _).subset hm)
      | false =>
          cases hw : s.wokeWriter with
          | true =>
              have hround : signalRound nw s x = { s with p := R.head? } := by
                simp [signalRound, hr, hw, hnext]
              have hinv' : SelInv s W (K ++ [x] ++ R) := by simpa using hinv
              have h := ih (s := { s with p := R.head? }) (hinv'.congr rfl rfl rfl) rfl hn
              rw [hround]
              simp only [hw, Bool.true_or, Bool.and_true, List.append_assoc,
                List.singleton_append] at h
              simp only [picked, passed, hr, hw, Bool.false_eq_true, if_false, if_true, Bool.true_or,
                Bool.and_true]
              exact ⟨h.inv, h.p, h.counts, h.allReaders⟩
          | false =>
              have hround : signalRound nw s x =
                  { s.take nw x with wokeWriter := true, allReaders := false, p := R.head? } := by
                simp [signalRound, hr, hw, hnext]
              have h := ih
                (s := { s.take nw x with wokeWriter := true, allReaders := false, p := R.head? })
                ((hinv.take nw).congr rfl rfl rfl) rfl hn
              rw [hround]
              simpa [picked, passed, hr] using
                h.took rfl fun hm => hxR ((picked_sublist _ _).subset hm)

/-! ## The loop of a broadcast -/

theorem broadcast_loop (nw : α → Queued) (hinv : SelInv s W R) (hp : s.p = R.head?) (hn : R.length ≤ n) :
    Ends nw s (loop (broadcastRound nw) n s) (W ++ R) [] R
      (s.allReaders && R.all fun x => (nw x).nativeReader) := by
  induction R generalizing s W n with
  | nil =>
      have hp : s.p = none := hp
      have hloop : loop (broadcastRound nw) n s = s := by
        cases n <;> simp [loop, hp]
      rw [hloop]
      exact ⟨by simpa using hinv, hp, bump_nil.symm, by simp⟩
  | cons x R ih =>
      obtain ⟨n, rfl⟩ : ∃ n', n = n' + 1 := ⟨n - 1, by simp at hn; omega⟩
      have hp : s.p = some x := hp
      have hn : R.length ≤ n := by simpa using hn
      have hnext : s.links.nextIn s.waiters x = R.head? :=
        (show Denotes s.links s.waiters ([] ++ x :: R) from hinv.waiters).nextIn
      have hxR : x ∉ R := (List.nodup_cons.mp (List.nodup_append.mp hinv.nodup).2.1).1
      have hloop : loop (broadcastRound nw) (n + 1) s =
          loop (broadcastRound nw) n { s.take nw x with
            allReaders := s.allReaders && (nw x).nativeReader, p := R.head? } := by
        simp [loop, hp, broadcastRound, hnext]
      have htake : SelInv (s.take nw x) (W ++ [x]) R := hinv.take nw (K := [])
      have h := ih (s := { s.take nw x with
        allReaders := s.allReaders && (nw x).nativeReader, p := R.head? })
        (htake.congr rfl rfl rfl) rfl hn
      rw [hloop]
      simpa [Bool.and_assoc] using h.took rfl hxR

end

/-! ## The selection -/

/-- What a signal removes from the queue `q`: the first waiter, and if that is a
reader of an `nsync_mu`, all of those and the first other waiter. -/
def signalSelects (nw : α → Queued) (q : List α) (x : α) : Bool :=
  match q with
  | [] => false
  | first :: _ =>
      if (nw first).nativeReader then
        (nw x).nativeReader || decide (q.find? (fun y => !(nw y).nativeReader) = some x)
      else decide (x = first)

section

variable {nw : α → Queued} {reader : α → Bool} {l : List α} {x : α}

omit [DecidableEq α] in
theorem picked_true : picked reader true l = l.filter reader ∧
    passed reader true l = l.filter fun x => !reader x := by
  induction l with
  | nil => exact ⟨rfl, rfl⟩
  | cons x l ih => cases hr : reader x <;> simp [picked, passed, hr, ih]

/-- What the loop picks and what it leaves, as parts of the queue. -/
theorem picked_false (reader : α → Bool) (hnd : l.Nodup) :
    picked reader false l =
        l.filter (fun x => reader x || decide (l.find? (fun y => !reader y) = some x)) ∧
      passed reader false l =
        l.filter (fun x => !(reader x || decide (l.find? (fun y => !reader y) = some x))) := by
  induction l with
  | nil => exact ⟨rfl, rfl⟩
  | cons x l ih =>
      obtain ⟨hx, hnd⟩ := List.nodup_cons.mp hnd
      cases hr : reader x with
      | true =>
          obtain ⟨h1, h2⟩ := ih hnd
          simp [picked, passed, hr, h1, h2]
      | false =>
          have hne : ∀ y ∈ l, x ≠ y := by
            rintro y hy rfl
            exact hx hy
          obtain ⟨h1, h2⟩ : picked reader true l = l.filter reader ∧
              passed reader true l = l.filter fun x => !reader x := picked_true
          simp only [picked, passed, hr, h1, h2, Bool.false_eq_true, if_false]
          constructor
          · simp only [List.find?_cons, hr, Bool.not_false, List.filter_cons, decide_true,
              Bool.or_true, if_true, List.cons.injEq, true_and]
            apply List.filter_congr
            intro y hy
            simp [hne y hy]
          · simp only [List.find?_cons, hr, Bool.not_false, List.filter_cons, decide_true,
              Bool.or_true, Bool.not_true, Bool.false_eq_true, if_false]
            apply List.filter_congr
            intro y hy
            simp [hne y hy]

omit [DecidableEq α] in
/-- The loop picks readers only, if there are no others. -/
theorem picked_all : (∀ x ∈ picked reader false l, reader x = true) ↔ l.all reader = true := by
  induction l with
  | nil => simp [picked]
  | cons x l ih => cases hr : reader x <;> simp [picked, hr, ih]

/-- A call that found the queue `q` has ended its loop with `r`: the waiters that `P`
selects are on `to_wake_list` and the others in the queue, both in their order;
the removals are counted, and the flags are right. -/
structure Selected (nw : α → Queued) (q : List α) (P : α → Bool) (c : Var α) (r : Var α × Sel α) :
    Prop where
  done : r.2.p = none
  toWake : Denotes r.1.links r.2.toWake (q.filter P)
  waiters : Denotes r.1.links r.1.waiters (q.filter fun x => !P x)
  removeCount : ∀ x, r.1.removeCount x =
    if x ∈ q.filter P ∧ (nw x).mucv then c.removeCount x + 1#32 else c.removeCount x
  allReaders : 1 < (q.filter P).length →
    (r.2.allReaders = true ↔ ∀ x ∈ q.filter P, (nw x).nativeReader = true)
  word : r.1.word &&& cvNonEmpty = 0#32 ↔ q.filter (fun x => !P x) = []

variable {c : Var α} {q : List α} {n : ℕ}

omit [DecidableEq α] in
theorem Var.selInv (hq : Denotes c.links c.waiters q) (b : Bool) : SelInv (c.sel b) [] q :=
  ⟨hq, .empty _, hq.nodup⟩

omit [DecidableEq α] in
/-- The word that a signal stores. -/
theorem signalWord (hw : c.word &&& cvNonEmpty ≠ 0#32) {w : Option α} :
    (if w = none then c.word &&& ~~~cvNonEmpty else c.word) &&& cvNonEmpty = 0#32 ↔ w = none := by
  split_ifs with hnone
  · simp [hnone, BitVec.and_assoc]
  · simp [hnone, hw]

theorem Ends.selected {s s' : Sel α} {P : α → Bool} {b : Bool} {w : Word}
    (h : Ends nw s s' (q.filter P) (q.filter fun x => !P x) (q.filter P) b)
    (hc : s.removeCount = c.removeCount)
    (hall : 1 < (q.filter P).length → (b = true ↔ ∀ x ∈ q.filter P, (nw x).nativeReader = true))
    (hword : w &&& cvNonEmpty = 0#32 ↔ s'.waiters = none) :
    Selected nw q P c (s'.release w) := by
  refine ⟨h.p, h.inv.toWake, h.inv.waiters, fun x => ?_, ?_, ?_⟩
  · change s'.removeCount x = _
    rw [h.counts, hc]
    rfl
  · change _ → (s'.allReaders = true ↔ _)
    rwa [h.allReaders]
  · exact hword.trans h.inv.waiters.eq_none

theorem signal_selected (hq : Denotes c.links c.waiters q) (hne : q ≠ [])
    (hw : c.word &&& cvNonEmpty ≠ 0#32) (hn : q.length ≤ n) :
    Selected nw q (signalSelects nw q) c (nsyncCvSignal nw n c) := by
  obtain ⟨first, rest, rfl⟩ := List.exists_cons_of_ne_nil hne
  have hfirst : c.links.firstOf c.waiters = some first := hq.firstOf
  obtain ⟨hnf, hnd⟩ := List.nodup_cons.mp hq.nodup
  have htake : SelInv ((c.sel false).take nw first) [first] rest :=
    SelInv.take nw (W := []) (K := []) (Var.selInv hq false)
  rw [nsyncCvSignal, if_neg hw, hfirst]
  cases hr : (nw first).nativeReader with
  | false =>
      have hP : signalSelects nw (first :: rest) = fun x => decide (x = first) := by
        funext x
        simp [signalSelects, hr]
      have hother : ∀ x ∈ rest, x ≠ first := by
        rintro x hx rfl
        exact hnf hx
      have hsel : (first :: rest).filter (fun x => decide (x = first)) = [first] := by
        simpa using hother
      have hrest : (first :: rest).filter (fun x => !decide (x = first)) = rest := by
        simpa using hother
      simp only [hr, Bool.false_eq_true, if_false]
      rw [hP]
      refine Ends.selected (s := c.sel false) (b := false) ⟨?_, rfl, ?_, rfl⟩ rfl ?_ (signalWord hw)
      · rw [hsel, hrest]
        exact htake
      · rw [hsel]
        exact take_removeCount
      · simp [hsel]
  | true =>
      have hloop := signal_loop nw (n := n) (K := [])
        (s := { (c.sel false).take nw first with allReaders := true, p := rest.head? })
        (htake.congr rfl rfl rfl) rfl (by simp at hn; omega)
      obtain ⟨h1, h2⟩ := picked_false (fun x => (nw x).nativeReader) hnd
      have hP : signalSelects nw (first :: rest) = fun x => (nw x).nativeReader ||
          decide (rest.find? (fun y => !(nw y).nativeReader) = some x) := by
        funext x
        simp [signalSelects, hr]
      have hsel : (first :: rest).filter (signalSelects nw (first :: rest)) =
          first :: picked (fun x => (nw x).nativeReader) false rest := by
        rw [h1, hP, List.filter_cons, hr]
        rfl
      have hrest : (first :: rest).filter (fun x => !signalSelects nw (first :: rest) x) =
          passed (fun x => (nw x).nativeReader) false rest := by
        rw [h2, hP]
        simp [hr]
      have hends := hloop.took (s := c.sel false) (W := []) (x := first) rfl
        fun hm => hnf ((picked_sublist _ _).subset hm)
      simp only [hr, if_true, htake.waiters.firstOf]
      refine Ends.selected (s := c.sel false) (b := rest.all fun x => (nw x).nativeReader) ?_ rfl
        (fun hlen => ?_) (signalWord hw)
      · rw [hsel, hrest]
        exact hends
      · rw [hsel, ← picked_all]
        simp [hr]

theorem broadcast_selected (hq : Denotes c.links c.waiters q) (hw : c.word &&& cvNonEmpty ≠ 0#32)
    (hn : q.length ≤ n) : Selected nw q (fun _ => true) c (nsyncCvBroadcast nw n c) := by
  have hloop := broadcast_loop nw (n := n) (s := { c.sel true with p := q.head? })
    ((Var.selInv hq true).congr rfl rfl rfl) rfl hn
  have hall : q.filter (fun _ => true) = q := by simp
  have hnone : q.filter (fun _ => !true) = [] := by simp
  rw [nsyncCvBroadcast, if_neg hw, hq.firstOf]
  refine Ends.selected (s := { c.sel true with p := q.head? })
    (b := q.all fun x => (nw x).nativeReader) ?_ rfl (fun _ => ?_) ?_
  · rw [hall, hnone]
    exact hloop
  · simp
  · simp [hloop.inv.waiters.eq_none]

end

/-- On every non-empty queue `nsync_cv_signal` selects the first waiter, or all
readers of an `nsync_mu` with the first other waiter if the first one is such a
reader, and `nsync_cv_broadcast` selects everybody. -/
theorem signal_and_broadcast_select (nw : α → Queued) (c : Var α) (q : List α) (n : ℕ)
    (hq : Denotes c.links c.waiters q) (hne : q ≠ []) (hw : c.word &&& cvNonEmpty ≠ 0#32)
    (hn : q.length ≤ n) :
    Selected nw q (signalSelects nw q) c (nsyncCvSignal nw n c) ∧
      Selected nw q (fun _ => true) c (nsyncCvBroadcast nw n c) :=
  ⟨signal_selected hq hne hw hn, broadcast_selected hq hw hn⟩

/-- A queue of a reader, an `nsync_wait_n` waiter, a writer and a reader. -/
def mixedQueue : Fin 4 → Queued
  | 0 => ⟨true, some .reader⟩
  | 1 => ⟨false, none⟩
  | 2 => ⟨true, some .writer⟩
  | 3 => ⟨true, some .reader⟩

theorem mixedQueue_selects : ∃ c : Var (Fin 4), Denotes c.links c.waiters [0, 1, 2, 3] ∧
    Denotes (nsyncCvSignal mixedQueue 4 c).1.links (nsyncCvSignal mixedQueue 4 c).2.toWake
      [0, 1, 3] ∧
    Denotes (nsyncCvSignal mixedQueue 4 c).1.links (nsyncCvSignal mixedQueue 4 c).1.waiters [2] ∧
    Denotes (nsyncCvBroadcast mixedQueue 4 c).1.links (nsyncCvBroadcast mixedQueue 4 c).2.toWake
      [0, 1, 2, 3] := by
  let c : Var (Fin 4) := ⟨cvNonEmpty, ⟨fun x => x + 1, fun x => x - 1⟩, some 3, fun _ => 0#32⟩
  have hq : Denotes c.links c.waiters [0, 1, 2, 3] := by
    refine ⟨rfl, fun _ => ⟨by simp, ?_, ?_⟩, by decide⟩
    · simp [Links.Linked, c]
    · simp only [List.head?_cons, List.getLast?_cons_cons, List.getLast?_singleton,
        Option.mem_some_iff, forall_eq', Links.Linked, c]
      decide
  obtain ⟨hs, hb⟩ := signal_and_broadcast_select mixedQueue c [0, 1, 2, 3] 4 hq (by simp)
    (by decide) (by simp)
  exact ⟨c, hq, hs.toWake, hs.waiters, hb.toWake⟩

end Nsync.Cv
