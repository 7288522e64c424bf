import Nsync.Time
import Nsync.Word
import Nsync.Lib.Run

/-!
# The futex semaphore

Any number of threads call the functions of
`platform/linux/src/nsync_semaphore_futex.c` on one semaphore.  The kernel is not
trusted with much: a wait on the futex may end at any moment with any of the
results that the code allows for, and a reading of the clock may be any time.
-/

namespace Nsync.Semaphore

open Nsync.Lib Nsync.Time Nsync.Time.Timespec

/-! ## State -/

/-- How a wait on the futex ends. -/
inductive FutexResult where
  | success
  | eintr
  | ewouldblock
  | etimedout
  deriving DecidableEq, Repr

/-- What the kernel answers in a step: how a wait on the futex ends, and the time. -/
structure Env where
  futex : FutexResult
  now : Timespec
  deriving DecidableEq, Repr

/-- Places in `nsync_mu_semaphore_p`; `i` is the value loaded. -/
inductive PPc where
  | load
  | futexWait
  | cas (i : Word)
  | done
  deriving DecidableEq, Repr

inductive Result where
  | ok
  | etimedout
  deriving DecidableEq, Repr

/-- Places in `nsync_mu_semaphore_p_with_deadline`; `ts` is the timeout passed to the
futex. -/
inductive PDeadlinePc where
  | load
  | now
  | futexWait (ts : Option Timespec)
  | check
  | cas (i : Word)
  | done (result : Result)
  deriving DecidableEq, Repr

/-- Places in `nsync_mu_semaphore_v`. -/
inductive VPc where
  | load
  | cas (oldValue : Word)
  | wake
  | done
  deriving DecidableEq, Repr

/-- The call that a thread is in.  As history, `decs` counts the decrements made by the
call and `readings` lists the times that it has read off the clock. -/
inductive Pc where
  | idle
  | p (decs : ℕ) (p : PPc)
  | pDeadline (absDeadline : Timespec) (decs : ℕ) (readings : List Timespec) (p : PDeadlinePc)
  | v (p : VPc)
  deriving DecidableEq, Repr

/-- The field `i` of the futex and the threads.  The fields `incs` and `decs` are history
variables: the increments made by calls of V and the decrements made by calls of
P. -/
structure State (T : Type) where
  i : Word
  pc : T → Pc
  incs : ℕ
  decs : ℕ
  crashed : Bool

variable {T : Type} [DecidableEq T]

def State.setPc (s : State T) (t : T) (p : Pc) : State T :=
  { s with pc := Function.update s.pc t p }

/-! ## The functions of the source -/

/-- `nsync_mu_semaphore_p` -/
def semaphoreP (s : State T) (t : T) (n : ℕ) (env : Env) : PPc → State T
  | .load => s.setPc t (.p n (if s.i = 0#32 then .futexWait else .cas s.i))
  | .futexWait =>
      match env.futex with
      | .success | .eintr | .ewouldblock => s.setPc t (.p n .load)
      | .etimedout => { s with crashed := true }
  | .cas i =>
      if s.i = i then
        { s with i := i - 1#32, decs := s.decs + 1 }.setPc t (.p (n + 1) .done)
      else s.setPc t (.p n .load)
  | .done => s.setPc t .idle

/-- `nsync_mu_semaphore_p_with_deadline`; `absolute` is `FUTEX_TIMEOUT_IS_ABSOLUTE`. -/
def semaphorePWithDeadline (absolute : Bool) (s : State T) (t : T) (d : Timespec) (n : ℕ)
    (R : List Timespec) (env : Env) : PDeadlinePc → State T
  | .load =>
      s.setPc t (.pDeadline d n R
        (if s.i = 0#32 then
          if cmp d noDeadline ≠ 0 then
            if absolute then .futexWait (some ⟨d.tvSec, d.tvNsec⟩) else .now
          else .futexWait none
        else .cas s.i))
  | .now =>
      s.setPc t (.pDeadline d n (R ++ [env.now])
        (.futexWait (some (if 0 < cmp env.now d then ⟨0, 0⟩
          else let rel := sub d env.now; ⟨rel.tvSec, rel.tvNsec⟩))))
  | .futexWait _ =>
      match env.futex with
      | .success | .eintr | .ewouldblock => s.setPc t (.pDeadline d n R .load)
      | .etimedout => s.setPc t (.pDeadline d n R .check)
  | .check =>
      s.setPc t (.pDeadline d n (R ++ [env.now])
        (if cmp d env.now ≤ 0 then .done .etimedout else .load))
  | .cas i =>
      if s.i = i then
        { s with i := i - 1#32, decs := s.decs + 1 }.setPc t (.pDeadline d (n + 1) R (.done .ok))
      else s.setPc t (.pDeadline d n R .load)
  | .done _ => s.setPc t .idle

/-- `nsync_mu_semaphore_v` -/
def semaphoreV (s : State T) (t : T) : VPc → State T
  | .load => s.setPc t (.v (.cas s.i))
  | .cas old =>
      if s.i = old then { s with i := old + 1#32, incs := s.incs + 1 }.setPc t (.v .wake)
      else s.setPc t (.v .load)
  | .wake => s.setPc t (.v .done)
  | .done => s.setPc t .idle

/-! ## Runs -/

inductive Act where
  | p
  | pWithDeadline (absDeadline : Timespec)
  | v
  | step (env : Env)
  deriving DecidableEq, Repr

def step (absolute : Bool) (x : T × Act) (s : State T) : Option (State T) :=
  if s.crashed then none
  else match x.2, s.pc x.1 with
    | .p, .idle => some (s.setPc x.1 (.p 0 .load))
    | .pWithDeadline d, .idle => some (s.setPc x.1 (.pDeadline d 0 [] .load))
    | .v, .idle => some (s.setPc x.1 (.v .load))
    | .step env, .p n p => some (semaphoreP s x.1 n env p)
    | .step env, .pDeadline d n R p => some (semaphorePWithDeadline absolute s x.1 d n R env p)
    | .step _, .v p => some (semaphoreV s x.1 p)
    | _, _ => none

/-- After `nsync_mu_semaphore_init`, with no thread in a call. -/
def initial : State T := ⟨0#32, fun _ => .idle, 0, 0, false⟩

/-- A post leaves fewer than `2 ^ 31` posts outstanding. -/
def Few (x : T × Act) (s : State T) : Prop :=
  ∀ old, s.pc x.1 = .v (.cas old) → s.incs + 1 < s.decs + 2 ^ 31

def Reachable (absolute : Bool) : State T → Prop := Reach (step absolute) Few initial

/-! ## The invariant -/

/-- What a call has done so far. -/
def Pc.Ok : Pc → Prop
  | .p n q =>
      match q with
      | .cas i => n = 0 ∧ i ≠ 0#32
      | .done => n = 1
      | _ => n = 0
  | .pDeadline d n R q =>
      match q with
      | .futexWait ts => n = 0 ∧ (d = noDeadline ↔ ts = none)
      | .cas i => n = 0 ∧ i ≠ 0#32
      | .done .ok => n = 1
      | .done .etimedout => n = 0 ∧ ∃ x ∈ R, cmp d x ≤ 0
      | .now => n = 0 ∧ d ≠ noDeadline
      | _ => n = 0
  | _ => True

structure Inv (s : State T) : Prop where
  count : s.i.toNat + s.decs = s.incs
  few : s.i.toNat < 2 ^ 31
  pc : ∀ t, (s.pc t).Ok

omit [DecidableEq T] in
theorem inv_initial : Inv (initial : State T) :=
  ⟨rfl, (by decide : (0#32).toNat < 2 ^ 31), fun _ => trivial⟩

variable {s s' : State T} {t : T} {absolute : Bool}

theorem Inv.setPc (h : Inv s) {p : Pc} (hp : p.Ok) : Inv (s.setPc t p) := by
  refine ⟨h.count, h.few, fun u => ?_⟩
  by_cases hu : u = t
  · simpa [State.setPc, hu] using hp
  · simpa [State.setPc, hu] using h.pc u

/-- A thread that decrements a count which is not zero. -/
theorem Inv.decrement (h : Inv s) (hi : s.i ≠ 0#32) {p : Pc} (hp : p.Ok) :
    Inv ({ s with i := s.i - 1#32, decs := s.decs + 1 }.setPc t p) := by
  have hpos : 0 < s.i.toNat := by
    have : s.i.toNat ≠ 0 := fun h0 => hi (BitVec.eq_of_toNat_eq (by simpa using h0))
    omega
  have hsub : (s.i - 1#32).toNat = s.i.toNat - 1 := by
    rw [BitVec.toNat_sub_of_le (by rw [BitVec.le_def]; exact hpos)]
    rfl
  have hcount := h.count
  have hfew := h.few
  have hinv : Inv { s with i := s.i - 1#32, decs := s.decs + 1 } :=
    ⟨by simp only [hsub]; omega, by simp only [hsub]; omega, h.pc⟩
  exact hinv.setPc hp

theorem Inv.increment (h : Inv s) (hfew : s.incs + 1 < s.decs + 2 ^ 31) {p : Pc} (hp : p.Ok) :
    Inv ({ s with i := s.i + 1#32, incs := s.incs + 1 }.setPc t p) := by
  have hcount := h.count
  have hadd : (s.i + 1#32).toNat = s.i.toNat + 1 := by
    rw [BitVec.toNat_add]
    simp
    omega
  have hinv : Inv { s with i := s.i + 1#32, incs := s.incs + 1 } :=
    ⟨by simp only [hadd]; omega, by simp only [hadd]; omega, h.pc⟩
  exact hinv.setPc hp

/-- Times compare as equal only if they are. -/
theorem cmp_eq_zero_iff {a b : Timespec} : cmp a b = 0 ↔ a = b := by
  rw [Timespec.cmp, cmpWith_eq_sign, cmpWith_eq_sign]
  constructor
  · intro h
    by_cases hs : (a.tvSec.toInt - b.tvSec.toInt).sign = 0
    · rw [if_pos hs, Int.sign_eq_zero_iff_zero] at h
      rw [Int.sign_eq_zero_iff_zero] at hs
      exact ext_toInt (by omega) (by omega)
    · rw [if_neg hs] at h
      exact absurd h hs
  · rintro rfl
    simp

/-! ## Steps -/

theorem semaphoreP_inv {n : ℕ} {env : Env} {p : PPc} (h : Inv s) (hpc : (Pc.p n p).Ok) :
    Inv (semaphoreP s t n env p) := by
  cases p with
  | load =>
      rw [semaphoreP]
      split
      · exact h.setPc hpc
      · next hi => exact h.setPc ⟨hpc, hi⟩
  | futexWait =>
      rw [semaphoreP]
      cases env.futex with
      | etimedout => exact ⟨h.count, h.few, h.pc⟩
      | _ => exact h.setPc hpc
  | cas i =>
      obtain ⟨rfl, hi⟩ := hpc
      rw [semaphoreP]
      split
      · next heq =>
          subst heq
          exact h.decrement hi rfl
      · exact h.setPc rfl
  | done => exact h.setPc trivial

theorem semaphorePWithDeadline_inv {d : Timespec} {n : ℕ} {R : List Timespec} {env : Env}
    {p : PDeadlinePc} (h : Inv s) (hpc : (Pc.pDeadline d n R p).Ok) :
    Inv (semaphorePWithDeadline absolute s t d n R env p) := by
  cases p with
  | load =>
      have hn : n = 0 := hpc
      refine h.setPc ?_
      by_cases hi : s.i = 0#32
      · rw [if_pos hi]
        by_cases hd : cmp d noDeadline = 0
        · rw [if_neg (by simpa using hd)]
          exact ⟨hn, by simp [cmp_eq_zero_iff.mp hd]⟩
        · have hne : d ≠ noDeadline := fun he => hd (cmp_eq_zero_iff.mpr he)
          rw [if_pos hd]
          cases absolute with
          | true => exact ⟨hn, by simp [hne]⟩
          | false => exact ⟨hn, hne⟩
      · rw [if_neg hi]
        exact ⟨hn, hi⟩
  | now => exact h.setPc ⟨hpc.1, by simp [hpc.2]⟩
  | futexWait ts =>
      rw [semaphorePWithDeadline]
      cases env.futex <;> exact h.setPc hpc.1
  | check =>
      have hn : n = 0 := hpc
      refine h.setPc ?_
      by_cases hd : cmp d env.now ≤ 0
      · rw [if_pos hd]
        exact ⟨hn, env.now, by simp, hd⟩
      · rw [if_neg hd]
        exact hn
  | cas i =>
      obtain ⟨rfl, hi⟩ := hpc
      rw [semaphorePWithDeadline]
      split
      · next heq =>
          subst heq
          exact h.decrement hi rfl
      · exact h.setPc rfl
  | done r => exact h.setPc trivial

theorem semaphoreV_inv {p : VPc} (h : Inv s)
    (hfew : ∀ old, p = .cas old → s.incs + 1 < s.decs + 2 ^ 31) : Inv (semaphoreV s t p) := by
  cases p with
  | cas old =>
      rw [semaphoreV]
      split
      · next heq =>
          subst heq
          exact h.increment (hfew _ rfl) trivial
      · exact h.setPc trivial
  | _ => exact h.setPc trivial

theorem step_inv {x : T × Act} (h : Inv s) (hfew : Few x s) (hs : step absolute x s = some s') :
    Inv s' := by
  rw [step] at hs
  split at hs
  · cases hs
  have hpc := h.pc x.1
  split at hs
  · cases hs
    exact h.setPc rfl
  · cases hs
    exact h.setPc rfl
  · cases hs
    exact h.setPc trivial
  · next hp =>
      cases hs
      exact semaphoreP_inv h (hp ▸ hpc)
  · next hp =>
      cases hs
      exact semaphorePWithDeadline_inv h (hp ▸ hpc)
  · next hp =>
      cases hs
      exact semaphoreV_inv h fun old hold => hfew old (hold ▸ hp)
  · cases hs

theorem Reachable.inv (h : Reachable absolute s) : Inv s :=
  Reach.invariant h inv_initial fun _ _ _ _ hi hP hs => step_inv hi hP hs

/-! ## Conservation of tokens -/

end Nsync.Semaphore
