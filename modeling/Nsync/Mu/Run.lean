import Nsync.Lib.Run
import Nsync.Mu.Simulation

/-!
# Runs of a mutex system

The invariant holds in every state of every run that does not lose updates of
the mutex word.
-/

namespace Nsync.Mu

open Nsync.Lib

variable {T σ : Type} [DecidableEq T]

/-- A run from `s` to `s'` in which every step of a thread is one that `P` allows. -/
def Runs (E : Env σ) (P : T → Act σ → State T σ → Prop) : State T σ → State T σ → Prop :=
  Reach (fun (i : T × Act σ) s => step E i.1 i.2 s) fun i s => P i.1 i.2 s

/-- The states that a system reaches when every step of a thread is one that `P`
allows. -/
def Reachable (E : Env σ) (P : T → Act σ → State T σ → Prop) (x : σ) : State T σ → Prop :=
  Runs E P (initial x)

section

variable {E : Env σ} {P Q : T → Act σ → State T σ → Prop} {x : σ} {s s' : State T σ}

theorem Runs.invariant {I : State T σ → Prop} (h : Runs E P s s') (h0 : I s)
    (hstep : ∀ t a s₁ s₂, Runs E P s s₁ → I s₁ → P t a s₁ → step E t a s₁ = some s₂ → I s₂) :
    I s' :=
  Reach.invariant h h0 fun i s₁ s₂ => hstep i.1 i.2 s₁ s₂

theorem Runs.mono (h : Runs E P s s') (hPQ : ∀ t a s, P t a s → Q t a s) : Runs E Q s s' :=
  Reach.mono h fun i s => hPQ i.1 i.2 s

theorem Runs.snoc {s₁ s₂ : State T σ} (h : Runs E P s s₁) {t : T} {a : Act σ} (hP : P t a s₁)
    (hs : step E t a s₁ = some s₂) : Runs E P s s₂ :=
  Reach.step (t, a) h hP hs

theorem Reachable.append (h : Reachable E P x s) (h' : Runs E P s s') : Reachable E P x s' :=
  Reach.trans h h'

theorem Reachable.invariant {I : State T σ → Prop} (h : Reachable E P x s) (h0 : I (initial x))
    (hstep : ∀ t a s s', Reachable E P x s → I s → P t a s → step E t a s = some s' → I s') :
    I s :=
  Runs.invariant h h0 hstep

end

/-! ## Calls from start to end -/

/-- The call that a thread is in, with the mode in which a wait was entered. -/
inductive Op where
  | outside
  | lock
  | unlock
  | muWait (entry : Mode)
  | cvWait (entry : Mode)
  | signal
  | debug
  deriving DecidableEq

def Op.entry : Op → Option Mode
  | .muWait m => some m
  | .cvWait m => some m
  | _ => none

def LockCont.op : LockCont → Op
  | .ret => .lock
  | .muWait l => .muWait l.entry
  | .cvWait l => .cvWait l.entry

def UnlockCont.op : UnlockCont → Op
  | .ret => .unlock
  | .muWait l => .muWait l.entry
  | .cvWait l => .cvWait l.entry

def Pc.op : Pc T → Op
  | .client _ => .outside
  | .lock _ _ k _ => k.op
  | .lockSlow _ k _ => k.op
  | .unlock _ k _ => k.op
  | .unlockSlow _ k _ => k.op
  | .muWait l _ => .muWait l.entry
  | .cvWait l _ => .cvWait l.entry
  | .signal _ _ => .signal
  | .wakeWaiters _ _ => .signal
  | .debug _ _ => .debug
  | .panicked => .outside

/-- A thread at `q` can go on at `p`: it stays in its call or returns from it,
and a wait returns in the mode in which it was entered. -/
def Pc.Next (q : Pc T) : Pc T → Prop
  | .client held => ∀ m, q.op.entry = some m → held = some m
  | .panicked => True
  | p => p.op = q.op

/-- Thread `t` goes on from `q`, and no other thread moves. -/
def Moves (t : T) (q : Pc T) (s s' : State T σ) : Prop :=
  ∃ p : Pc T, s'.pc = Function.update s.pc t p ∧ q.Next p

section

variable {E : Env σ} {C : WaitCondition → Prop} {w : Waiter} {s s' s₁ : State T σ} {t : T}
  {q : Pc T}

theorem setPc_pc_of_eq (hs₁ : s₁.pc = s.pc) (p : Pc T) :
    (s₁.setPc t p).pc = Function.update s.pc t p := by
  rw [← hs₁]
  rfl

theorem afterLock_moves (hs₁ : s₁.pc = s.pc) {m : Mode} {k : LockCont} (hq : q.op = k.op)
    (hk : k.Ok C m) : Moves t q s (afterLock s₁ t m k) := by
  cases k with
  | ret => exact ⟨_, setPc_pc_of_eq hs₁ _, fun m' hm' => by rw [hq] at hm'; cases hm'⟩
  | muWait l => exact ⟨_, setPc_pc_of_eq hs₁ _, hq.symm⟩
  | cvWait l =>
      refine ⟨_, setPc_pc_of_eq hs₁ _, fun m' hm' => ?_⟩
      rw [hq] at hm'
      cases hm'
      exact congrArg some hk.symm

omit [DecidableEq T] in
theorem UnlockCont.next_pc {k : UnlockCont} (hq : q.op = k.op) : q.Next k.pc := by
  cases k with
  | ret =>
      intro m hm
      rw [hq] at hm
      cases hm
  | muWait l => exact hq.symm
  | cvWait l => exact hq.symm

theorem afterUnlock_moves (hs₁ : s₁.pc = s.pc) {k : UnlockCont} (hq : q.op = k.op) :
    Moves t q s (afterUnlock s₁ t k) := by
  rw [afterUnlock_eq]
  exact ⟨_, setPc_pc_of_eq hs₁ _, UnlockCont.next_pc hq⟩

theorem wakeStart_moves (hs₁ : s₁.pc = s.pc) (hq : q.op = .signal) (l : Wake T) :
    Moves t q s (wakeStart s₁ t l) := by
  rw [wakeStart]
  split
  · exact ⟨_, setPc_pc_of_eq hs₁ _, fun m hm => by rw [hq] at hm; cases hm⟩
  · exact ⟨_, setPc_pc_of_eq hs₁ _, hq.symm⟩

theorem muLock_moves {m : Mode} {b : Bool} {k : LockCont} {p : LockPc}
    (hok : Pc.Ok C w (.lock m b k p : Pc T)) :
    Moves t (.lock m b k p) s (muLock s t m b k p) := by
  obtain ⟨hk, htry, -⟩ := hok
  have hfail : b = true → Moves t (.lock m b k p) s (s.setPc t (.client none)) := by
    intro hb
    refine ⟨_, rfl, fun m' hm' => ?_⟩
    rw [htry hb] at hm'
    cases hm'
  cases p <;> simp only [muLock] <;> repeat' split
  all_goals
    first
    | exact ⟨_, rfl, rfl⟩
    | exact hfail ‹_›
    | exact afterLock_moves rfl rfl hk

theorem muLockSlow_moves {l : LockSlow} {k : LockCont} {p : LockSlowPc}
    (hok : Pc.Ok C w (.lockSlow l k p : Pc T)) (hs : muLockSlow s t l k p = some s') :
    Moves t (.lockSlow l k p) s s' := by
  rcases p with _ | _ | _ | _ | ⟨_ | _⟩ | _ | _ <;> simp only [muLockSlow, semP] at hs <;>
    repeat' split at hs
  all_goals
    cases hs
    try exact ⟨_, rfl, rfl⟩
  exact afterLock_moves rfl rfl hok.1

theorem muUnlock_moves (kind : UnlockKind) (k : UnlockCont) (p : UnlockPc) :
    Moves t (.unlock kind k p) s (muUnlock s t kind k p) := by
  cases p <;> simp only [muUnlock] <;> repeat' split
  all_goals
    first
    | exact ⟨_, rfl, rfl⟩
    | exact ⟨_, rfl, trivial⟩
    | exact afterUnlock_moves rfl rfl

/-- A thread in `nsync_mu_unlock_slow_` stays there, panics, or goes on with its
caller. -/
def UnlockSlowGoes (t : T) (m : Mode) (k : UnlockCont) (s s' : State T σ) : Prop :=
  ∃ p : Pc T, s'.pc = Function.update s.pc t p ∧
    (p = k.pc ∨ p = .panicked ∨ ∃ p', p = .unlockSlow m k p')

theorem UnlockSlowGoes.stays {m : Mode} {k : UnlockCont} (hs₁ : s₁.pc = s.pc)
    (p : UnlockSlowPc T) : UnlockSlowGoes t m k s (s₁.setPc t (.unlockSlow m k p)) :=
  ⟨_, setPc_pc_of_eq hs₁ _, Or.inr (Or.inr ⟨p, rfl⟩)⟩

theorem afterUnlock_goes (hs₁ : s₁.pc = s.pc) (m : Mode) (k : UnlockCont) :
    UnlockSlowGoes t m k s (afterUnlock s₁ t k) := by
  rw [afterUnlock_eq]
  exact ⟨_, setPc_pc_of_eq hs₁ _, Or.inl rfl⟩

theorem scanNext_goes (hs₁ : s₁.pc = s.pc) (m : Mode) (k : UnlockCont) (sc : Scan T) :
    UnlockSlowGoes t m k s (scanNext s₁ t m k sc) := by
  cases hw : s₁.waiters with
  | nil =>
      rw [scanNext_nil hw]
      exact .stays hs₁ _
  | cons p rest =>
      obtain ⟨b, -, -, heq⟩ := scanNext_cons t m k sc hw
      rw [heq]
      exact .stays hs₁ _

theorem wakeNext_goes (hs₁ : s₁.pc = s.pc) (m : Mode) (k : UnlockCont) (l : List T) :
    UnlockSlowGoes t m k s (wakeNext s₁ t m k l) := by
  cases l with
  | nil => exact afterUnlock_goes hs₁ m k
  | cons x l => exact .stays hs₁ _

theorem scanStep_goes (m : Mode) (k : UnlockCont) (sc : Scan T) :
    UnlockSlowGoes t m k s (scanStep E s t m k sc) := by
  have hend : ∀ p, UnlockSlowGoes t m k s (scanStep.scanEnd E s t m k sc p) := by
    intro p
    rw [scanStep.scanEnd]
    split
    · exact .stays rfl _
    · exact scanNext_goes rfl m k _
  rw [scanStep]
  repeat' split
  all_goals
    first
    | exact hend _
    | exact .stays rfl _
    | exact ⟨_, rfl, Or.inr (Or.inl rfl)⟩

theorem muUnlockSlow_goes (m : Mode) (k : UnlockCont) (p : UnlockSlowPc T) :
    UnlockSlowGoes t m k s (muUnlockSlow E s t m k p) := by
  rcases p with _ | _ | _ | ⟨_, _ | _⟩ | _ | ⟨_, _, _ | _⟩ | ⟨_, _ | _⟩ | ⟨_, _ | _⟩ | _ | _ <;>
    simp only [muUnlockSlow] <;> repeat' split
  all_goals
    first
    | exact .stays rfl _
    | exact afterUnlock_goes rfl m k
    | exact scanNext_goes rfl m k _
    | exact scanStep_goes m k _
    | exact wakeNext_goes rfl m k _

theorem muUnlockSlow_moves (m : Mode) (k : UnlockCont) (p : UnlockSlowPc T) :
    Moves t (.unlockSlow m k p) s (muUnlockSlow E s t m k p) := by
  obtain ⟨q, hq, rfl | rfl | ⟨p', rfl⟩⟩ := muUnlockSlow_goes (E := E) (s := s) (t := t) m k p
  · exact ⟨_, hq, UnlockCont.next_pc rfl⟩
  · exact ⟨_, hq, trivial⟩
  · exact ⟨_, hq, rfl⟩

theorem semWaitWithCancel_moves {b : Bool} {f : Outcome → Pc T} {ch : Choice}
    (hf : ∀ o, q.Next (f o)) (hs : semWaitWithCancel s t b f ch = some s') : Moves t q s s' := by
  cases ch <;> simp only [semWaitWithCancel, semP] at hs <;> split at hs <;> cases hs
  all_goals exact ⟨_, rfl, hf _⟩

theorem muWaitWithDeadline_moves {l : MuWait} {ch : Choice} {p : MuWaitPc}
    (hok : Pc.Ok C w (.muWait l p : Pc T)) (hs : muWaitWithDeadline E s t l ch p = some s') :
    Moves t (.muWait l p) s s' := by
  have hret : Pc.Next (T := T) (.muWait l p) (.client (some l.lType)) := by
    intro m hm
    cases hm
    exact congrArg some hok.1.symm
  rcases p with _ | _ | _ | _ | ⟨_ | _⟩ | ⟨_ | _⟩ | _ | _ | _ | _ | _ | _ | _ | _ | ⟨_, _ | _⟩ |
      _ | _ | _ | _ <;>
    simp only [muWaitWithDeadline] at hs
  case sem =>
    refine semWaitWithCancel_moves (fun o => ?_) hs
    split <;> rfl
  all_goals repeat' split at hs
  all_goals
    cases hs
    first
    | exact ⟨_, rfl, rfl⟩
    | exact ⟨_, rfl, trivial⟩
    | exact ⟨_, rfl, hret⟩

theorem cvWaitWithDeadline_moves {l : CvWait} {ch : Choice} {p : CvWaitPc}
    (hs : cvWaitWithDeadline s t l ch p = some s') : Moves t (.cvWait l p) s s' := by
  rcases p with _ | _ | ⟨_ | _⟩ | _ | _ | _ | _ | _ | ⟨_ | _⟩ | _ | _ | ⟨_, _ | _⟩ | _ | _ | _ <;>
    simp only [cvWaitWithDeadline] at hs
  case sem =>
    refine semWaitWithCancel_moves (fun o => ?_) hs
    rfl
  all_goals repeat' split at hs
  all_goals
    cases hs
    first
    | exact ⟨_, rfl, rfl⟩
    | exact ⟨_, rfl, trivial⟩

theorem cvSignal_moves (l : Signal T) (p : SignalPc T) :
    Moves t (.signal l p) s (cvSignal s t l p) := by
  rcases p with _ | ⟨_ | _⟩ | ⟨_, _, _ | _⟩ | _ | ⟨_, _, _ | _⟩ | _ <;>
    simp only [cvSignal, signalDone] <;> repeat' split
  all_goals
    first
    | exact ⟨_, rfl, rfl⟩
    | exact ⟨_, rfl, (by rintro _ ⟨⟩)⟩

theorem wakeWaiters_moves (l : Wake T) (p : WakePc T) :
    Moves t (.wakeWaiters l p) s (wakeWaiters E s t l p) := by
  rcases p with _ | _ | ⟨_, _ | _⟩ | _ | _ <;> simp only [wakeWaiters] <;> repeat' split
  all_goals
    first
    | exact ⟨_, rfl, rfl⟩
    | exact ⟨_, rfl, (by rintro _ ⟨⟩)⟩
    | exact wakeStart_moves rfl rfl _

theorem debugState_moves (l : Debug) (p : DebugPc) : Moves t (.debug l p) s (debugState s t l p) := by
  rcases p with _ | ⟨_ | _⟩ | _ <;> simp only [debugState] <;> repeat' split
  all_goals
    first
    | exact ⟨_, rfl, rfl⟩
    | exact ⟨_, rfl, (by rintro _ ⟨⟩)⟩

/-- A step inside a call stays in it or returns from it. -/
theorem step_moves {ch : Choice} (hok : (s.pc t).Ok C w) (hs : step E t (.step ch) s = some s') :
    Moves t (s.pc t) s s' := by
  simp only [step] at hs
  cases hpc : s.pc t with
  | client held => simp [hpc] at hs
  | panicked => simp [hpc] at hs
  | lock m b k p =>
      simp only [hpc, Option.some.injEq] at hs
      exact hs ▸ muLock_moves (hpc ▸ hok)
  | lockSlow l k p =>
      simp only [hpc] at hs
      exact muLockSlow_moves (hpc ▸ hok) hs
  | unlock kind k p =>
      simp only [hpc, Option.some.injEq] at hs
      exact hs ▸ muUnlock_moves kind k p
  | unlockSlow m k p =>
      simp only [hpc, Option.some.injEq] at hs
      exact hs ▸ muUnlockSlow_moves m k p
  | muWait l p =>
      simp only [hpc] at hs
      exact muWaitWithDeadline_moves (hpc ▸ hok) hs
  | cvWait l p =>
      simp only [hpc] at hs
      exact cvWaitWithDeadline_moves hs
  | signal l p =>
      simp only [hpc, Option.some.injEq] at hs
      exact hs ▸ cvSignal_moves l p
  | wakeWaiters l p =>
      simp only [hpc, Option.some.injEq] at hs
      exact hs ▸ wakeWaiters_moves l p
  | debug l p =>
      simp only [hpc, Option.some.injEq] at hs
      exact hs ▸ debugState_moves l p

/-- The call that begins with a step, for a caller that holds `held`. -/
def Call.op (held : Option Mode) : Call σ → Op
  | .lock _ | .tryLock _ => .lock
  | .unlock _ => .unlock
  | .muWait _ _ => .muWait (held.getD .writer)
  | .cvWait _ _ => .cvWait (held.getD .writer)
  | .signal _ _ => .signal
  | .debug _ _ => .debug
  | .setProt _ => .outside

theorem callStep_op {held : Option Mode} {c : Call σ} (hpc : s.pc t = .client held)
    (hs : callStep s t held c = some s') :
    ∃ p, s'.pc = Function.update s.pc t p ∧ p.op = c.op held := by
  cases c <;> simp only [callStep] at hs
  case muWait =>
    cases held <;> cases hs
    exact ⟨_, rfl, rfl⟩
  case cvWait =>
    cases held <;> cases hs
    exact ⟨_, rfl, rfl⟩
  case setProt =>
    split at hs <;> cases hs
    exact ⟨s.pc t, (Function.update_eq_self t s.pc).symm, by rw [hpc]; rfl⟩
  all_goals
    first
    | cases hs
      exact ⟨_, rfl, rfl⟩
    | split at hs <;> cases hs
      exact ⟨_, rfl, rfl⟩

/-- A call begins without the spinlock. -/
theorem callStep_spinRole {held : Option Mode} {c : Call σ} (hpc : s.pc t = .client held)
    (hs : callStep s t held c = some s') : (s'.pc t).spinRole = .no := by
  cases c <;> simp only [callStep] at hs
  case muWait | cvWait =>
    cases held <;> cases hs
    rw [State.setPc_self]
    rfl
  case signal =>
    cases hs
    rw [State.setPc_self]
    rfl
  case debug target _ =>
    cases hs
    rw [State.setPc_self]
    cases target <;> rfl
  case setProt =>
    split at hs <;> cases hs
    exact congrArg Pc.spinRole hpc
  all_goals
    split at hs <;> cases hs
    rw [State.setPc_self]
    rfl

omit [DecidableEq T] in
theorem Pc.Next.op {p : Pc T} (h : q.Next p) : p.op = q.op ∨ p.op = .outside := by
  cases p with
  | client held => exact Or.inr rfl
  | panicked => exact Or.inr rfl
  | _ => exact Or.inl h

/-- A thread stays in its call, leaves it, or begins a new one. -/
theorem step_op {a : Act σ} (hok : (s.pc t).Ok C w) (hs : step E t a s = some s') :
    ∃ p, s'.pc = Function.update s.pc t p ∧ (p.op = (s.pc t).op ∨ p.op = .outside ∨
      ∃ c held, a = .call c ∧ s.pc t = .client held ∧ p.op = c.op held) := by
  cases a with
  | post =>
      cases hs
      exact ⟨s.pc t, (Function.update_eq_self t s.pc).symm, Or.inl rfl⟩
  | call c =>
      simp only [step] at hs
      split at hs
      · next held hpc =>
          obtain ⟨p, hp, hop⟩ := callStep_op hpc hs
          exact ⟨p, hp, Or.inr (Or.inr ⟨c, held, rfl, hpc, hop⟩)⟩
      · cases hs
  | step ch =>
      obtain ⟨p, hp, hnext⟩ := step_moves hok hs
      exact ⟨p, hp, hnext.op.imp id Or.inl⟩

end

/-- The call is not one for debugging output. -/
def Act.NoDebug : Act σ → Prop
  | .call (.debug _ _) => False
  | _ => True

theorem Call.op_ne_debug {c : Call σ} (h : (Act.call c).NoDebug) (held : Option Mode) :
    c.op held ≠ .debug := by
  cases c <;> first | exact h.elim | simp [Call.op]

theorem Act.condIn_true (a : Act σ) : a.CondIn fun _ => True := by
  rcases a with ⟨_ | _ | _ | ⟨_ | _, _⟩ | _ | _ | _ | _⟩ | _ | _ <;> trivial

/-! ## The invariant in runs -/

variable {E : Env σ} {s s' : State T σ} {t : T} {a : Act σ}

variable [Fintype T] {C : WaitCondition → Prop} {P : T → Act σ → State T σ → Prop} {x : σ}

/-- The step loses no update of the mutex word, and the readers fit. -/
def QuietAct (E : Env σ) (t : T) (a : Act σ) (s : State T σ) : Prop :=
  Fits t s ∧ ∀ s', step E t a s = some s' → Quiet t s s'

/-- The invariant holds in every run that loses no update of the word. -/
theorem Reachable.good (h : Reachable E P x s)
    (hP : ∀ t a s, P t a s → a.CondIn C ∧ QuietAct E t a s) : ∃ loc, Good E C s loc := by
  refine h.invariant (I := fun s => ∃ loc, Good E C s loc) ⟨_, Good.initial E C x⟩ ?_
  rintro t a s s' - ⟨loc, hg⟩ hPa hs
  obtain ⟨hC, hfits, hquiet⟩ := hP t a s hPa
  obtain ⟨loc', -, hg'⟩ := step_simulates hg hfits hC hs
  exact ⟨loc', hg' (hquiet s' hs)⟩

omit [DecidableEq T] [Fintype T] in
theorem Pc.spinRole_ne_dbg {p : Pc T} (hp : p.op ≠ .debug) (w : Word) : p.spinRole ≠ .dbg w := by
  cases p with
  | debug l p => exact (hp rfl).elim
  | lockSlow l k p => cases p <;> simp [Pc.spinRole]
  | muWait l p => cases p <;> simp [Pc.spinRole]
  | wakeWaiters l p => cases p <;> simp [Pc.spinRole]
  | unlockSlow m k p =>
      cases p with
      | scan sc | scanRemove sc => cases h : sc.testing <;> simp [Pc.spinRole, h]
      | _ => simp [Pc.spinRole]
  | _ => simp [Pc.spinRole]

/-- In a run without debugging calls the invariant holds and nobody is inside
such a call. -/
theorem Reachable.good_of_noDebug (h : Reachable E P x s)
    (hP : ∀ t a s, P t a s → a.CondIn C ∧ a.NoDebug ∧ Fits t s) :
    (∃ loc, Good E C s loc) ∧ ∀ u, (s.pc u).op ≠ .debug := by
  refine h.invariant (I := fun s => (∃ loc, Good E C s loc) ∧ ∀ u, (s.pc u).op ≠ .debug)
    ⟨⟨_, Good.initial E C x⟩, nofun⟩ ?_
  rintro t a s s' - ⟨⟨loc, hg⟩, hop⟩ hPa hs
  obtain ⟨hC, hdebug, hfits⟩ := hP t a s hPa
  obtain ⟨loc', -, hg'⟩ := step_simulates hg hfits hC hs
  refine ⟨⟨loc', hg' fun u w _ hw => (Pc.spinRole_ne_dbg (hop u) w hw).elim⟩, fun u => ?_⟩
  obtain ⟨p, hp, hcase⟩ := step_op (hg.pcs t).ok hs
  rw [hp]
  by_cases hu : u = t
  · subst hu
    rw [Function.update_self]
    rcases hcase with hcase | hcase | ⟨c, held, rfl, -, hcase⟩
    · rw [hcase]
      exact hop u
    · rw [hcase]
      simp
    · rw [hcase]
      exact Call.op_ne_debug hdebug held
  · rw [Function.update_of_ne hu]
    exact hop u

/-- Any call but debugging output, as long as the readers fit in their field. -/
def Regular (t : T) (a : Act σ) (s : State T σ) : Prop := a.NoDebug ∧ Fits t s

theorem Reachable.good_of_regular (h : Reachable E Regular x s) :
    ∃ loc, Good E (fun _ => True) s loc :=
  (h.good_of_noDebug fun _ a _ hP => ⟨a.condIn_true, hP.1, hP.2⟩).1

/-- A regular step from a reachable state is a step of the protocol. -/
theorem Reachable.step_of_regular (h : Reachable E Regular x s) (hP : Regular t a s)
    (hs : step E t a s = some s') : ∃ loc loc', Good E (fun _ => True) s loc ∧
      Good E (fun _ => True) s' loc' ∧
      AStep E (fun _ => True) t (s.abs loc) (s'.abs loc') := by
  obtain ⟨⟨loc, hg⟩, hop⟩ := h.good_of_noDebug (C := fun _ => True) fun _ a _ hP =>
    ⟨a.condIn_true, hP.1, hP.2⟩
  obtain ⟨loc', hstep, hg'⟩ := step_simulates hg hP.2 a.condIn_true hs
  exact ⟨loc, loc', hg, hg' fun u w _ hw => (Pc.spinRole_ne_dbg (hop u) w hw).elim, hstep⟩

/-! ## Executing runs -/

/-- The protected state is a flag that every condition reads, and semaphores
count. -/
def flagEnv : Env Bool := ⟨fun _ _ x => x, fun _ _ _ => false, (· + 1)⟩

instance (a : Act σ) : Decidable a.NoDebug :=
  match a with
  | .call (.debug _ _) => inferInstanceAs (Decidable False)
  | .call (.lock _) | .call (.tryLock _) | .call (.unlock _) | .call (.muWait _ _)
  | .call (.cvWait _ _) | .call (.signal _ _) | .call (.setProt _) | .step _ | .post =>
      inferInstanceAs (Decidable True)

instance (t : T) (s : State T σ) : Decidable (Fits t s) := inferInstanceAs (Decidable (_ < _))

instance (t : T) (a : Act σ) (s : State T σ) : Decidable (Regular t a s) :=
  inferInstanceAs (Decidable (_ ∧ _))

/-- `n` steps of thread `t` inside its call. -/
def goOn (t : T) (n : ℕ) : List (T × Act σ) := List.replicate n (t, .step .run)

omit [Fintype T] in
/-- Executing a list of steps shows that a state with the property `f` is
reachable. -/
theorem Reachable.exists_of_exec [∀ t a s, Decidable (P t a s)] (l : List (T × Act σ))
    (f : State T σ → Bool)
    (h : (exec (fun (i : T × Act σ) s => step E i.1 i.2 s) (fun i s => decide (P i.1 i.2 s)) l
      (initial x)).map f = some true) : ∃ s, Reachable E P x s ∧ f s = true :=
  Reach.exists_of_exec (fun _ _ hi => of_decide_eq_true hi) h

end Nsync.Mu
