import Nsync.Lib.RwLock
import Nsync.Mu.Exclusion
import Nsync.Mu.Handshake

/-!
# The mutex is a reader/writer lock

In every run the threads hold the mutex as the users of a reader/writer lock may
expect, and the functions that ask how it is held read that off the mutex word.
-/

namespace Nsync.Mu

open Nsync.Lib

variable {T σ : Type}

/-- How each thread holds the mutex, also between the two ends of its calls. -/
def State.holders (s : State T σ) (u : T) : Option Mode := (s.pc u).lockRole

/-- `nsync_mu_assert_held` panics. -/
def assertHeldPanics (word : Word) : Bool := decide (word &&& muWheldIfNonZero = 0#32)

/-- `nsync_mu_rassert_held` panics. -/
def rassertHeldPanics (word : Word) : Bool := decide (word &&& muAnyLock = 0#32)

/-- `nsync_mu_is_reader`; `none` is a panic. -/
def isReader (word : Word) : Option Bool :=
  if word &&& muAnyLock = 0#32 then none else some (decide (word &&& muWlock = 0#32))

variable [Fintype T] {E : Env σ} {C : WaitCondition → Prop} {s s' : State T σ} {loc : T → Loc T}
  {t : T} {x : σ}

theorem Good.legal (h : Good E C s loc) : RwLock.Legal (· = Mode.writer) s.holders := by
  intro t u m n ht hu hm
  subst hm
  exact h.accounted.writer t u n ht hu

theorem Good.shares (h : Good E C s loc) : Shares (view s.word) s.holders := h.inv.lock.shares

theorem Good.wlock_iff (h : Good E C s loc) :
    (view s.word).wlock = false ↔ ∀ u, s.holders u ≠ some .writer := by
  rw [← Bool.not_eq_true, h.shares.write.set_iff, not_exists]

theorem Good.unheld_iff (h : Good E C s loc) :
    (view s.word).wlock = false ∧ (view s.word).readers = 0 ↔ ∀ u, s.holders u = none := by
  rw [h.wlock_iff]
  constructor
  · rintro ⟨hw, hr⟩ u
    cases hu : s.holders u with
    | none => rfl
    | some m =>
        cases m with
        | writer => exact (hw u hu).elim
        | reader => exact (h.shares.read.not_of_zero hr hu).elim
  · intro hnone
    refine ⟨fun u hu => ?_, ?_⟩
    · rw [hnone u] at hu
      cases hu
    · by_contra hr
      obtain ⟨u, hu⟩ := h.shares.read.exists_of_pos (Nat.pos_of_ne_zero hr)
      rw [hnone u] at hu
      cases hu

variable [DecidableEq T]

theorem Reachable.good_of_card (hcard : Fintype.card T < 2 ^ 24)
    (h : Reachable E (fun _ a _ => a.NoDebug) x s) : ∃ loc, Good E (fun _ => True) s loc :=
  (h.good_of_noDebug fun t a s hP => ⟨a.condIn_true, hP, fits_of_card hcard t s⟩).1

/-- A step of any thread changes what the threads hold as a step of the lock does. -/
theorem step_rwLock {a : Act σ} (hg : Good E C s loc) (hg' : ∃ loc', Good E C s' loc')
    (hs : step E t a s = some s') :
    s'.holders = s.holders ∨ RwLock.Step (· = Mode.writer) s.holders s'.holders := by
  obtain ⟨loc', hg'⟩ := hg'
  refine RwLock.step_of_legal ?_ hg.legal hg'.legal (t := t) fun u hu => ?_
  · intro m n hm hn
    cases m <;> cases n <;> first | rfl | exact (hm rfl).elim | exact (hn rfl).elim
  · simp only [State.holders]
    rw [step_pc_of_ne hu hs]

/-- Any threads, fewer than the reader field can count, call the functions of `nsync_mu`
and `nsync_cv` in any order.  What they hold is the state of a reader/writer lock in a run
of its own, each step is one of its steps or none, and a thread outside the library holds
what its last call left it. -/
theorem implements_rwLock (hcard : Fintype.card T < 2 ^ 24)
    (h : Reachable E (fun _ a _ => a.NoDebug) x s) :
    Relation.ReflTransGen (RwLock.Step (· = Mode.writer)) (fun _ => none) s.holders ∧
    (∀ t held, s.pc t = .client held → s.holders t = held) ∧
    ∀ t a s', a.NoDebug → step E t a s = some s' →
      s'.holders = s.holders ∨ RwLock.Step (· = Mode.writer) s.holders s'.holders := by
  refine ⟨?_, ?_, ?_⟩
  · refine h.invariant (I := fun s =>
      Relation.ReflTransGen (RwLock.Step (· = Mode.writer)) (fun _ => none) s.holders) .refl ?_
    intro t a s s' hr hrun hP hs
    obtain ⟨loc, hg⟩ := Reachable.good_of_card hcard hr
    rcases step_rwLock hg (Reachable.good_of_card hcard (Runs.snoc hr hP hs)) hs with heq | hstep
    · rwa [heq]
    · exact hrun.tail hstep
  · intro t held hpc
    rw [State.holders, hpc]
    rfl
  · intro t a s' hP hs
    obtain ⟨loc, hg⟩ := Reachable.good_of_card hcard h
    exact step_rwLock hg (Reachable.good_of_card hcard (Runs.snoc h hP hs)) hs

/-- In every state that threads reach so, `nsync_mu_assert_held` panics exactly when
nobody holds the mutex in write mode, `nsync_mu_rassert_held` exactly when nobody holds
it, and `nsync_mu_is_reader` tells every holder its own mode. -/
theorem asserts_exact (hcard : Fintype.card T < 2 ^ 24)
    (h : Reachable E (fun _ a _ => a.NoDebug) x s) :
    (assertHeldPanics s.word = true ↔ ∀ u, s.holders u ≠ some .writer) ∧
    (rassertHeldPanics s.word = true ↔ ∀ u, s.holders u = none) ∧
    ∀ t m, s.holders t = some m → isReader s.word = some (decide (m = .reader)) := by
  obtain ⟨loc, hg⟩ := Reachable.good_of_card hcard h
  refine ⟨?_, ?_, fun t m ht => ?_⟩
  · rw [assertHeldPanics, decide_eq_true_iff, and_muWheldIfNonZero]
    exact hg.wlock_iff
  · rw [rassertHeldPanics, decide_eq_true_iff, and_muAnyLock]
    exact hg.unheld_iff
  · have hheld : ¬ s.word &&& muAnyLock = 0#32 := by
      rw [and_muAnyLock, hg.unheld_iff]
      intro hnone
      rw [hnone t] at ht
      cases ht
    rw [isReader, if_neg hheld]
    congr 1
    rw [decide_eq_decide, and_muWlock]
    cases m with
    | writer =>
        rw [hg.shares.write.set_of (t := t) ht]
        decide
    | reader =>
        rw [hg.shares.reader_wlock ht]
        decide

/-- One thread reads under the mutex, and a writer waits for it. -/
def readingRun : List (Fin 2 × Act Bool) :=
  [(0, .call (.lock .reader))] ++ goOn 0 1 ++ [(1, .call (.lock .writer))] ++ goOn 1 8

def readsOne (s : State (Fin 2) Bool) : Bool :=
  decide (s.holders 0 = some .reader ∧ s.holders 1 = none ∧ s.waiters = [1])

theorem implements_rwLock_readingRun : ∃ s : State (Fin 2) Bool,
    Reachable flagEnv (fun _ a _ => a.NoDebug) false s ∧ s.holders 0 = some .reader ∧
      Relation.ReflTransGen (RwLock.Step (· = Mode.writer)) (fun _ => none) s.holders := by
  obtain ⟨s, hs, hf⟩ := Reachable.exists_of_exec (T := Fin 2) (E := flagEnv)
    (P := fun _ a _ => a.NoDebug) (x := false) readingRun readsOne (by decide +kernel)
  have hcard : Fintype.card (Fin 2) < 2 ^ 24 := by decide
  exact ⟨s, hs, (of_decide_eq_true hf).1, (implements_rwLock hcard hs).1⟩

theorem asserts_exact_readingRun : ∃ s : State (Fin 2) Bool,
    Reachable flagEnv (fun _ a _ => a.NoDebug) false s ∧ s.waiters = [1] ∧
      isReader s.word = some true := by
  obtain ⟨s, hs, hf⟩ := Reachable.exists_of_exec (T := Fin 2) (E := flagEnv)
    (P := fun _ a _ => a.NoDebug) (x := false) readingRun readsOne (by decide +kernel)
  have hcard : Fintype.card (Fin 2) < 2 ^ 24 := by decide
  obtain ⟨hheld, -, hq⟩ := of_decide_eq_true hf
  exact ⟨s, hs, hq, (asserts_exact hcard hs).2.2 0 .reader hheld⟩

end Nsync.Mu
