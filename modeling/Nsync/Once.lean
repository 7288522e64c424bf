import Nsync.Word
import Nsync.Lib.Run

/-!
# Run-once initialization

Any number of threads make any mix of the four calls of `internal/once.c`.  A
supplied function may itself make such calls, so a thread is described by a
stack of calls in progress.  The mutexes of the `once_sync` entries are plain
locks with one owner, and a wait on `once_cv` may end by its deadline at any
moment.
-/

namespace Nsync.Once

open Nsync.Lib

/-- A function as supplied to one of the calls: `f` alone, or `farg` with its
argument. -/
inductive Supplied (F A : Type) where
  | f (f : F)
  | farg (f : F) (arg : A)
  deriving DecidableEq

/-- Places in `nsync_run_once` and `nsync_run_once_impl`. -/
inductive Pc where
  | fastLoad
  | load
  | lock (o : Word)
  | cas
  | reload
  | unlockToRun
  | start
  | running
  | relock
  | broadcast
  | store
  | waitLoad
  | cvEnqueue
  | asleep
  | cvRelock
  | unlock
  deriving DecidableEq

/-- A call in progress.  The flag `sync` says whether `s` is not `NULL`. -/
structure Frame (O F A : Type) where
  once : O
  sync : Bool
  fn : Supplied F A
  pc : Pc

/-- The words of the `nsync_once`s, the `once_sync` array and the threads.  The
last two fields are history variables: the functions that were started for each
`nsync_once`, and whether one of them has finished. -/
structure State (T O F A : Type) where
  word : O → Word
  mu : Fin 64 → Option T
  cv : Fin 64 → List T
  stack : T → List (Frame O F A)
  started : O → List (Supplied F A)
  finished : O → Bool

variable {T O F A : Type}

/-! ## The four calls -/

def runOnce (once : O) (f : F) : Frame O F A := ⟨once, true, .f f, .fastLoad⟩
def runOnceArg (once : O) (f : F) (arg : A) : Frame O F A := ⟨once, true, .farg f arg, .fastLoad⟩
def runOnceSpin (once : O) (f : F) : Frame O F A := ⟨once, false, .f f, .fastLoad⟩
def runOnceArgSpin (once : O) (f : F) (arg : A) : Frame O F A :=
  ⟨once, false, .farg f arg, .fastLoad⟩

inductive Act (O F A : Type) where
  | runOnce (once : O) (f : F)
  | runOnceArg (once : O) (f : F) (arg : A)
  | runOnceSpin (once : O) (f : F)
  | runOnceArgSpin (once : O) (f : F) (arg : A)
  /-- The function that the thread is running returns. -/
  | finish
  | step
  /-- The deadline of a wait on `once_cv` has passed. -/
  | timeout

section

variable [DecidableEq T] [DecidableEq O]

/-- Thread `t` goes on at `pc` in the call `fr`. -/
def State.goto (s : State T O F A) (t : T) (fr : Frame O F A) (rest : List (Frame O F A))
    (pc : Pc) : State T O F A :=
  { s with stack := Function.update s.stack t ({ fr with pc := pc } :: rest) }

def State.ret (s : State T O F A) (t : T) (rest : List (Frame O F A)) : State T O F A :=
  { s with stack := Function.update s.stack t rest }

/-- Thread `t` locks the mutex of entry `e`, which must be free, and goes on. -/
def lockMu (s : State T O F A) (t : T) (e : Fin 64) (s' : State T O F A) :
    Option (State T O F A) :=
  if s.mu e = none then some { s' with mu := Function.update s.mu e (some t) } else none

def unlockMu (s : State T O F A) (e : Fin 64) : State T O F A :=
  { s with mu := Function.update s.mu e none }

/-- `nsync_run_once_impl` and the load before it; `e` is the entry of
`fr.once`. -/
def runOnceImpl (s : State T O F A) (t : T) (e : Fin 64) (fr : Frame O F A)
    (rest : List (Frame O F A)) (timeout : Bool) : Option (State T O F A) :=
  match fr.pc with
  | .fastLoad =>
      some (if s.word fr.once = 2#32 then s.ret t rest else s.goto t fr rest .load)
  | .load =>
      some (if s.word fr.once = 2#32 then s.ret t rest
        else s.goto t fr rest (.lock (s.word fr.once)))
  | .lock o =>
      let s' := s.goto t fr rest (if o = 0#32 then .cas else .waitLoad)
      if fr.sync then lockMu s t e s' else some s'
  | .cas =>
      if s.word fr.once = 0#32 then
        some { s.goto t fr rest (if fr.sync then .unlockToRun else .start) with
          word := Function.update s.word fr.once 1#32 }
      else some (s.goto t fr rest .reload)
  | .reload =>
      some (s.goto t fr rest (if s.word fr.once = 0#32 then .cas else .waitLoad))
  | .unlockToRun => some (unlockMu (s.goto t fr rest .start) e)
  | .start =>
      some { s.goto t fr rest .running with
        started := Function.update s.started fr.once (s.started fr.once ++ [fr.fn]) }
  | .running => none
  | .relock => lockMu s t e (s.goto t fr rest .broadcast)
  | .broadcast =>
      some { s.goto t fr rest .store with cv := Function.update s.cv e [] }
  | .store =>
      some { s.goto t fr rest .waitLoad with word := Function.update s.word fr.once 2#32 }
  | .waitLoad =>
      if s.word fr.once = 2#32 then
        some (if fr.sync then s.goto t fr rest .unlock else s.ret t rest)
      else some (s.goto t fr rest (if fr.sync then .cvEnqueue else .waitLoad))
  | .cvEnqueue =>
      some { unlockMu (s.goto t fr rest .asleep) e with
        cv := Function.update s.cv e (s.cv e ++ [t]) }
  | .asleep =>
      if t ∉ s.cv e then some (s.goto t fr rest .cvRelock)
      else if timeout then
        some { s.goto t fr rest .cvRelock with
          cv := Function.update s.cv e ((s.cv e).erase t) }
      else none
  | .cvRelock => lockMu s t e (s.goto t fr rest .waitLoad)
  | .unlock => some (unlockMu (s.ret t rest) e)

/-- A thread makes a call from outside all calls or from a function it runs. -/
def callOnce (s : State T O F A) (t : T) (fr : Frame O F A) : Option (State T O F A) :=
  match s.stack t with
  | [] => some { s with stack := Function.update s.stack t [fr] }
  | top :: rest =>
      if top.pc = .running then
        some { s with stack := Function.update s.stack t (fr :: top :: rest) }
      else none

/-- One step of thread `t`; `sync` is `NSYNC_ONCE_SYNC_`. -/
def step (sync : O → Fin 64) (t : T) (a : Act O F A) (s : State T O F A) :
    Option (State T O F A) :=
  match a with
  | .runOnce once f => callOnce s t (runOnce once f)
  | .runOnceArg once f arg => callOnce s t (runOnceArg once f arg)
  | .runOnceSpin once f => callOnce s t (runOnceSpin once f)
  | .runOnceArgSpin once f arg => callOnce s t (runOnceArgSpin once f arg)
  | .finish =>
      match s.stack t with
      | [] => none
      | top :: rest =>
          if top.pc = .running then
            some { s.goto t top rest (if top.sync then .relock else .store) with
              finished := Function.update s.finished top.once true }
          else none
  | .step =>
      match s.stack t with
      | [] => none
      | top :: rest => runOnceImpl s t (sync top.once) top rest false
  | .timeout =>
      match s.stack t with
      | [] => none
      | top :: rest => runOnceImpl s t (sync top.once) top rest true

end

/-- All words 0 and all threads outside the calls. -/
def initial : State T O F A where
  word := fun _ => 0#32
  mu := fun _ => none
  cv := fun _ => []
  stack := fun _ => []
  started := fun _ => []
  finished := fun _ => false

/-! ## What a step can do -/

namespace Pc

/-- Between the CAS that claims the `nsync_once` and the store of 2. -/
def claimed : Pc → Bool
  | .unlockToRun | .start | .running | .relock | .broadcast | .store => true
  | _ => false

/-- Reached only by calls that use the entry. -/
def syncOnly : Pc → Bool
  | .unlockToRun | .relock | .broadcast | .cvEnqueue | .asleep | .cvRelock | .unlock => true
  | _ => false

/-- Places where a call that uses the entry holds its mutex. -/
def locked : Pc → Bool
  | .cas | .reload | .unlockToRun | .broadcast | .store | .waitLoad | .cvEnqueue | .unlock => true
  | _ => false

end Pc

/-- What a call in progress knows of the word and the history of its
`nsync_once`. -/
def Frame.Ok (w : Word) (st : List (Supplied F A)) (fin : Bool) (fr : Frame O F A) : Prop :=
  match fr.pc with
  | .unlockToRun | .start => st = [] ∧ fin = false
  | .running => st = [fr.fn] ∧ fin = false
  | .relock | .broadcast | .store => st = [fr.fn] ∧ fin = true
  | .unlock => w = 2#32
  | _ => True

/-- The entry whose mutex a thread holds: only its innermost call can hold one. -/
def owns (sync : O → Fin 64) : List (Frame O F A) → Option (Fin 64)
  | [] => none
  | fr :: _ => if fr.sync && fr.pc.locked then some (sync fr.once) else none

/-- What a step does to the `nsync_once` of the call `fr`, whose thread has `st'`
as its new stack. -/
inductive WordEffect [DecidableEq O] (s s' : State T O F A) (fr : Frame O F A)
    (rest st' : List (Frame O F A)) : Prop where
  | goOn (pc : Pc) (hst : st' = { fr with pc := pc } :: rest)
      (hc : pc.claimed = fr.pc.claimed)
      (hok : ∀ st fin, fr.Ok (s.word fr.once) st fin →
        Frame.Ok (s.word fr.once) st fin { fr with pc := pc })
      (hw : s'.word = s.word) (hs : s'.started = s.started) (hf : s'.finished = s.finished)
  | ret (hst : st' = rest) (hc : fr.pc.claimed = false)
      (h2 : ∀ st fin, fr.Ok (s.word fr.once) st fin → s.word fr.once = 2#32)
      (hw : s'.word = s.word) (hs : s'.started = s.started) (hf : s'.finished = s.finished)
  | claim (pc : Pc) (hst : st' = { fr with pc := pc } :: rest) (h0 : s.word fr.once = 0#32)
      (hpc : fr.pc = .cas) (hpc' : pc = .unlockToRun ∨ pc = .start)
      (hw : s'.word = Function.update s.word fr.once 1#32) (hs : s'.started = s.started)
      (hf : s'.finished = s.finished)
  | start (hst : st' = { fr with pc := .running } :: rest) (hpc : fr.pc = .start)
      (hw : s'.word = s.word)
      (hs : s'.started = Function.update s.started fr.once (s.started fr.once ++ [fr.fn]))
      (hf : s'.finished = s.finished)
  | finish (pc : Pc) (hst : st' = { fr with pc := pc } :: rest) (hpc : fr.pc = .running)
      (hpc' : pc = .relock ∨ pc = .store) (hw : s'.word = s.word) (hs : s'.started = s.started)
      (hf : s'.finished = Function.update s.finished fr.once true)
  | store (hst : st' = { fr with pc := .waitLoad } :: rest) (hpc : fr.pc = .store)
      (hw : s'.word = Function.update s.word fr.once 2#32) (hs : s'.started = s.started)
      (hf : s'.finished = s.finished)

/-- What a step of a thread that changes its stack from `st` to `st'` does to the
mutexes. -/
inductive MuEffect (sync : O → Fin 64) (s s' : State T O F A) (t : T)
    (st st' : List (Frame O F A)) [DecidableEq T] : Prop where
  | keep (ho : owns sync st' = owns sync st) (hm : s'.mu = s.mu)
  | take (e : Fin 64) (ho : owns sync st = none) (ho' : owns sync st' = some e)
      (hfree : s.mu e = none) (hm : s'.mu = Function.update s.mu e (some t))
  | drop (e : Fin 64) (ho : owns sync st = some e) (ho' : owns sync st' = none)
      (hm : s'.mu = Function.update s.mu e none)

/-- The new stack of a thread whose innermost call was `fr`. -/
def NewStack (fr : Frame O F A) (rest st' : List (Frame O F A)) : Prop :=
  st' = rest ∨ ∃ pc, st' = { fr with pc := pc } :: rest ∧ (pc.syncOnly = true → fr.sync = true)

/-- Calls below the innermost one are running their functions. -/
def Below (rest : List (Frame O F A)) : Prop := ∀ g ∈ rest, g.pc = .running

theorem owns_below {rest : List (Frame O F A)} (h : Below rest) (sync : O → Fin 64) :
    owns sync rest = none := by
  cases rest with
  | nil => rfl
  | cons g rest => simp [owns, h g (by simp), Pc.locked]

section

variable [DecidableEq T] [DecidableEq O] {sync : O → Fin 64} {s s' : State T O F A} {t : T}
  {fr : Frame O F A} {rest : List (Frame O F A)}

omit [DecidableEq T] [DecidableEq O] in
theorem lockMu_eq {e : Fin 64} {s₁ : State T O F A} [DecidableEq T] (h : lockMu s t e s₁ = some s') :
    s.mu e = none ∧ s' = { s₁ with mu := Function.update s.mu e (some t) } := by
  unfold lockMu at h
  split at h
  · next hfree => exact ⟨hfree, (Option.some.inj h).symm⟩
  · cases h

/-- A step inside `nsync_run_once_impl` changes one call, its `nsync_once` and
the mutex of its entry. -/
theorem runOnceImpl_effect {b : Bool} (hsync : fr.pc.syncOnly = true → fr.sync = true)
    (hrest : Below rest) (h : runOnceImpl s t (sync fr.once) fr rest b = some s') :
    ∃ st', s'.stack = Function.update s.stack t st' ∧ NewStack fr rest st' ∧
      WordEffect s s' fr rest st' ∧ MuEffect sync s s' t (fr :: rest) st' := by
  have hnone := owns_below hrest sync
  cases hpc : fr.pc with
  | fastLoad =>
      simp only [runOnceImpl, hpc] at h
      split at h <;> cases h
      · next h2 =>
          exact ⟨_, rfl, Or.inl rfl, .ret rfl (by simp [hpc, Pc.claimed]) (fun _ _ _ => h2) rfl rfl
            rfl, .keep (by rw [hnone]; simp [owns, hpc, Pc.locked]) rfl⟩
      · exact ⟨_, rfl, Or.inr ⟨_, rfl, nofun⟩, .goOn _ rfl (by simp [hpc, Pc.claimed])
          (fun _ _ _ => trivial) rfl rfl rfl, .keep (by simp [owns, hpc, Pc.locked]) rfl⟩
  | load =>
      simp only [runOnceImpl, hpc] at h
      split at h <;> cases h
      · next h2 =>
          exact ⟨_, rfl, Or.inl rfl, .ret rfl (by simp [hpc, Pc.claimed]) (fun _ _ _ => h2) rfl rfl
            rfl, .keep (by rw [hnone]; simp [owns, hpc, Pc.locked]) rfl⟩
      · exact ⟨_, rfl, Or.inr ⟨_, rfl, nofun⟩, .goOn _ rfl (by simp [hpc, Pc.claimed])
          (fun _ _ _ => trivial) rfl rfl rfl, .keep (by simp [owns, hpc, Pc.locked]) rfl⟩
  | lock o =>
      simp only [runOnceImpl, hpc] at h
      split at h
      · next hs =>
          obtain ⟨hfree, rfl⟩ := lockMu_eq h
          refine ⟨_, rfl, Or.inr ⟨_, rfl, fun _ => hs⟩, .goOn _ rfl ?_ (fun _ _ _ => ?_) rfl rfl rfl,
            .take (sync fr.once) (by simp [owns, hpc, Pc.locked]) ?_ hfree rfl⟩ <;>
            split <;> simp [owns, hpc, Pc.locked, Pc.claimed, Frame.Ok, hs]
      · next hs =>
          cases h
          refine ⟨_, rfl, Or.inr ⟨_, rfl, ?_⟩, .goOn _ rfl ?_ (fun _ _ _ => ?_) rfl rfl rfl,
            .keep ?_ rfl⟩ <;> split <;>
            simp [owns, hpc, Pc.locked, Pc.claimed, Frame.Ok, hs, Pc.syncOnly]
  | cas =>
      simp only [runOnceImpl, hpc] at h
      split at h <;> cases h
      · next h0 =>
          refine ⟨_, rfl, Or.inr ⟨_, rfl, ?_⟩, .claim _ rfl h0 hpc ?_ rfl rfl rfl, .keep ?_ rfl⟩ <;>
            cases hs : fr.sync <;> simp [owns, hpc, Pc.locked, hs, Pc.syncOnly]
      · exact ⟨_, rfl, Or.inr ⟨_, rfl, nofun⟩, .goOn _ rfl (by simp [hpc, Pc.claimed])
          (fun _ _ _ => trivial) rfl rfl rfl, .keep (by simp [owns, hpc, Pc.locked]) rfl⟩
  | reload =>
      simp only [runOnceImpl, hpc] at h
      cases h
      refine ⟨_, rfl, Or.inr ⟨_, rfl, ?_⟩, .goOn _ rfl ?_ (fun _ _ _ => ?_) rfl rfl rfl,
        .keep ?_ rfl⟩ <;> split <;> simp [owns, hpc, Pc.locked, Pc.claimed, Frame.Ok, Pc.syncOnly]
  | unlockToRun =>
      simp only [runOnceImpl, hpc] at h
      cases h
      have hs := hsync (by simp [hpc, Pc.syncOnly])
      exact ⟨_, rfl, Or.inr ⟨_, rfl, nofun⟩, .goOn _ rfl (by simp [hpc, Pc.claimed])
        (fun _ _ hok => by simpa [Frame.Ok, hpc] using hok) rfl rfl rfl,
        .drop (sync fr.once) (by simp [owns, hpc, Pc.locked, hs]) (by simp [owns, Pc.locked]) rfl⟩
  | start =>
      simp only [runOnceImpl, hpc] at h
      cases h
      exact ⟨_, rfl, Or.inr ⟨_, rfl, nofun⟩, .start rfl hpc rfl rfl rfl,
        .keep (by simp [owns, hpc, Pc.locked]) rfl⟩
  | running => simp [runOnceImpl, hpc] at h
  | relock =>
      simp only [runOnceImpl, hpc] at h
      obtain ⟨hfree, rfl⟩ := lockMu_eq h
      have hs := hsync (by simp [hpc, Pc.syncOnly])
      exact ⟨_, rfl, Or.inr ⟨_, rfl, fun _ => hs⟩, .goOn _ rfl (by simp [hpc, Pc.claimed])
        (fun _ _ hok => by simpa [Frame.Ok, hpc] using hok) rfl rfl rfl,
        .take (sync fr.once) (by simp [owns, hpc, Pc.locked]) (by simp [owns, hs, Pc.locked]) hfree rfl⟩
  | broadcast =>
      simp only [runOnceImpl, hpc] at h
      cases h
      exact ⟨_, rfl, Or.inr ⟨_, rfl, nofun⟩, .goOn _ rfl (by simp [hpc, Pc.claimed])
        (fun _ _ hok => by simpa [Frame.Ok, hpc] using hok) rfl rfl rfl,
        .keep (by simp [owns, hpc, Pc.locked]) rfl⟩
  | store =>
      simp only [runOnceImpl, hpc] at h
      cases h
      exact ⟨_, rfl, Or.inr ⟨_, rfl, nofun⟩, .store rfl hpc rfl rfl rfl,
        .keep (by simp [owns, hpc, Pc.locked]) rfl⟩
  | waitLoad =>
      simp only [runOnceImpl, hpc] at h
      split at h <;> cases h
      · next h2 =>
          split
          · next hs =>
              exact ⟨_, rfl, Or.inr ⟨_, rfl, fun _ => hs⟩, .goOn _ rfl (by simp [hpc, Pc.claimed])
                (fun _ _ _ => h2) rfl rfl rfl, .keep (by simp [owns, hpc, Pc.locked]) rfl⟩
          · next hs =>
              exact ⟨_, rfl, Or.inl rfl, .ret rfl (by simp [hpc, Pc.claimed]) (fun _ _ _ => h2) rfl
                rfl rfl, .keep (by rw [hnone]; simp [owns, hs]) rfl⟩
      · refine ⟨_, rfl, Or.inr ⟨_, rfl, ?_⟩, .goOn _ rfl ?_ (fun _ _ _ => ?_) rfl rfl rfl,
          .keep ?_ rfl⟩ <;> cases hs : fr.sync <;>
          simp [owns, hpc, hs, Pc.locked, Pc.claimed, Frame.Ok, Pc.syncOnly]
  | cvEnqueue =>
      simp only [runOnceImpl, hpc] at h
      cases h
      have hs := hsync (by simp [hpc, Pc.syncOnly])
      exact ⟨_, rfl, Or.inr ⟨_, rfl, fun _ => hs⟩, .goOn _ rfl (by simp [hpc, Pc.claimed])
        (fun _ _ _ => trivial) rfl rfl rfl,
        .drop (sync fr.once) (by simp [owns, hpc, Pc.locked, hs]) (by simp [owns, Pc.locked]) rfl⟩
  | asleep =>
      simp only [runOnceImpl, hpc] at h
      have hs := hsync (by simp [hpc, Pc.syncOnly])
      repeat' split at h
      all_goals cases h
      all_goals
        exact ⟨_, rfl, Or.inr ⟨_, rfl, fun _ => hs⟩, .goOn _ rfl (by simp [hpc, Pc.claimed])
          (fun _ _ _ => trivial) rfl rfl rfl, .keep (by simp [owns, hpc, Pc.locked]) rfl⟩
  | cvRelock =>
      simp only [runOnceImpl, hpc] at h
      obtain ⟨hfree, rfl⟩ := lockMu_eq h
      have hs := hsync (by simp [hpc, Pc.syncOnly])
      exact ⟨_, rfl, Or.inr ⟨_, rfl, nofun⟩, .goOn _ rfl (by simp [hpc, Pc.claimed])
        (fun _ _ _ => trivial) rfl rfl rfl,
        .take (sync fr.once) (by simp [owns, hpc, Pc.locked]) (by simp [owns, hs, Pc.locked]) hfree rfl⟩
  | unlock =>
      simp only [runOnceImpl, hpc] at h
      cases h
      have hs := hsync (by simp [hpc, Pc.syncOnly])
      exact ⟨_, rfl, Or.inl rfl, .ret rfl (by simp [hpc, Pc.claimed])
        (fun _ _ hok => by simpa [Frame.Ok, hpc] using hok) rfl rfl rfl,
        .drop (sync fr.once) (by simp [owns, hpc, Pc.locked, hs]) hnone rfl⟩

/-- A step pushes a call or changes the innermost one. -/
theorem step_effect {a : Act O F A}
    (hsync : ∀ fr ∈ s.stack t, fr.pc.syncOnly = true → fr.sync = true)
    (hbelow : ∀ fr rest, s.stack t = fr :: rest → Below rest) (h : step sync t a s = some s') :
    (∃ fr, fr.pc = .fastLoad ∧ Below (s.stack t) ∧
      s' = { s with stack := Function.update s.stack t (fr :: s.stack t) }) ∨
    ∃ fr rest st', s.stack t = fr :: rest ∧ s'.stack = Function.update s.stack t st' ∧
      NewStack fr rest st' ∧ WordEffect s s' fr rest st' ∧
      MuEffect sync s s' t (fr :: rest) st' := by
  have hcall : ∀ fr : Frame O F A, fr.pc = .fastLoad → callOnce s t fr = some s' →
      ∃ fr, fr.pc = .fastLoad ∧ Below (s.stack t) ∧
        s' = { s with stack := Function.update s.stack t (fr :: s.stack t) } := by
    intro fr hfr hc
    unfold callOnce at hc
    split at hc
    · next hst =>
        cases hc
        exact ⟨fr, hfr, by simp [Below, hst], by rw [hst]⟩
    · next top rest hst =>
        split at hc
        · next hrun =>
            cases hc
            refine ⟨fr, hfr, fun g hg => ?_, by rw [hst]⟩
            rw [hst] at hg
            rcases List.mem_cons.mp hg with rfl | hg
            · exact hrun
            · exact hbelow top rest hst g hg
        · cases hc
  have himpl : ∀ b, (match s.stack t with
      | [] => none
      | top :: rest => runOnceImpl s t (sync top.once) top rest b) = some s' →
      ∃ fr rest st', s.stack t = fr :: rest ∧ s'.stack = Function.update s.stack t st' ∧
        NewStack fr rest st' ∧ WordEffect s s' fr rest st' ∧
        MuEffect sync s s' t (fr :: rest) st' := by
    intro b hb
    split at hb
    · cases hb
    · next top rest hst =>
        obtain ⟨st', heff⟩ := runOnceImpl_effect (hsync top (by simp [hst])) (hbelow top rest hst) hb
        exact ⟨top, rest, st', hst, heff⟩
  cases a with
  | runOnce once f => exact Or.inl (hcall _ rfl h)
  | runOnceArg once f arg => exact Or.inl (hcall _ rfl h)
  | runOnceSpin once f => exact Or.inl (hcall _ rfl h)
  | runOnceArgSpin once f arg => exact Or.inl (hcall _ rfl h)
  | step => exact Or.inr (himpl _ h)
  | timeout => exact Or.inr (himpl _ h)
  | finish =>
      right
      simp only [step] at h
      split at h
      · cases h
      · next top rest hst =>
          split at h
          · next hrun =>
              cases h
              refine ⟨top, rest, _, hst, rfl, Or.inr ⟨_, rfl, ?_⟩,
                .finish _ rfl hrun ?_ rfl rfl rfl, .keep ?_ rfl⟩ <;>
                cases hs : top.sync <;> simp [owns, hrun, hs, Pc.locked, Pc.syncOnly]
          · cases h

end

/-! ## The invariant -/

section

variable [DecidableEq O]

/-- The calls on a stack that have claimed `o`. -/
def claims (o : O) (st : List (Frame O F A)) : ℕ :=
  st.countP fun fr => decide (fr.once = o) && fr.pc.claimed

theorem claims_cons (o : O) (fr : Frame O F A) (st : List (Frame O F A)) :
    claims o (fr :: st) = claims o st + if fr.once = o ∧ fr.pc.claimed = true then 1 else 0 := by
  simp [claims, List.countP_cons]

theorem not_claimed_of_claims {o : O} {st : List (Frame O F A)} (h : claims o st = 0)
    {fr : Frame O F A} (hfr : fr ∈ st) (ho : fr.once = o) : fr.pc.claimed = false := by
  have := List.countP_eq_zero.mp h fr hfr
  simpa [ho] using this

structure OnceInv (s : State T O F A) (o : O) : Prop where
  range : s.word o = 0#32 ∨ s.word o = 1#32 ∨ s.word o = 2#32
  free : s.word o ≠ 1#32 → ∀ t, claims o (s.stack t) = 0
  one : s.word o = 1#32 → ∃ t, claims o (s.stack t) = 1 ∧ ∀ u, u ≠ t → claims o (s.stack u) = 0
  zero : s.word o = 0#32 → s.started o = [] ∧ s.finished o = false
  two : s.word o = 2#32 → (∃ f, s.started o = [f]) ∧ s.finished o = true
  frames : ∀ t, ∀ fr ∈ s.stack t, fr.once = o → fr.Ok (s.word o) (s.started o) (s.finished o)

namespace OnceInv

variable {s s' : State T O F A} {o : O} {t : T} {fr : Frame O F A} {rest : List (Frame O F A)}

/-- A claimed call is the only one, and the word is 1. -/
theorem of_claimed (h : OnceInv s o) (hst : s.stack t = fr :: rest) (ho : fr.once = o)
    (hc : fr.pc.claimed = true) :
    s.word o = 1#32 ∧ claims o rest = 0 ∧ ∀ u, u ≠ t → claims o (s.stack u) = 0 := by
  have hpos : claims o (s.stack t) = claims o rest + 1 := by
    rw [hst, claims_cons, if_pos ⟨ho, hc⟩]
  have h1 : s.word o = 1#32 := by
    by_contra hne
    have := h.free hne t
    omega
  obtain ⟨u, hu, hother⟩ := h.one h1
  have hut : t = u := by
    by_contra hne
    have := hother t hne
    omega
  subst hut
  exact ⟨h1, by omega, hother⟩

/-- A step that changes nothing that concerns `o`. -/
theorem frame [DecidableEq T] {st' : List (Frame O F A)} (h : OnceInv s o)
    (hs : s'.stack = Function.update s.stack t st') (hw : s'.word o = s.word o)
    (hst : s'.started o = s.started o) (hf : s'.finished o = s.finished o)
    (hc : claims o st' = claims o (s.stack t))
    (hfr : ∀ g ∈ st', g.once = o → g.Ok (s.word o) (s.started o) (s.finished o)) :
    OnceInv s' o := by
  have hclaims : ∀ u, claims o (s'.stack u) = claims o (s.stack u) := by
    intro u
    by_cases hu : u = t
    · subst hu
      rw [hs, Function.update_self, hc]
    · rw [hs, Function.update_of_ne hu]
  refine ⟨by rw [hw]; exact h.range, fun h1 u => ?_, fun h1 => ?_, fun h0 => ?_, fun h2 => ?_,
    fun u g hg ho => ?_⟩
  · rw [hclaims]
    exact h.free (by rwa [hw] at h1) u
  · obtain ⟨u, hu, hother⟩ := h.one (by rwa [hw] at h1)
    exact ⟨u, by rw [hclaims, hu], fun v hv => by rw [hclaims, hother v hv]⟩
  · rw [hst, hf]
    exact h.zero (by rwa [hw] at h0)
  · rw [hst, hf]
    exact h.two (by rwa [hw] at h2)
  · rw [hw, hst, hf]
    by_cases hu : u = t
    · subst hu
      rw [hs, Function.update_self] at hg
      exact hfr g hg ho
    · rw [hs, Function.update_of_ne hu] at hg
      exact h.frames u g hg ho

omit [DecidableEq O] in
theorem ok_of_unclaimed {w : Word} {st : List (Supplied F A)} {fin : Bool}
    (hc : fr.pc.claimed = false) (hu : fr.pc ≠ .unlock) : fr.Ok w st fin := by
  unfold Frame.Ok
  cases hpc : fr.pc <;> simp_all [Pc.claimed]

/-- The innermost call of `t` acts as the only one that has claimed `o`. -/
theorem act [DecidableEq T] {pc : Pc} (h : OnceInv s o) (hst : s.stack t = fr :: rest)
    (ho : fr.once = o) (hs : s'.stack = Function.update s.stack t ({ fr with pc := pc } :: rest))
    (hrest : claims o rest = 0) (hother : ∀ u, u ≠ t → claims o (s.stack u) = 0)
    (hne : s.word o ≠ 2#32)
    (hw : (s'.word o = 1#32 ∧ pc.claimed = true) ∨ (s'.word o = 2#32 ∧ pc.claimed = false ∧
      (∃ f, s'.started o = [f]) ∧ s'.finished o = true))
    (hok : Frame.Ok (s'.word o) (s'.started o) (s'.finished o) { fr with pc := pc }) :
    OnceInv s' o := by
  have hself : claims o (s'.stack t) = if pc.claimed = true then 1 else 0 := by
    rw [hs, Function.update_self, claims_cons, hrest]
    simp [ho]
  have hothers : ∀ u, u ≠ t → claims o (s'.stack u) = 0 := by
    intro u hu
    rw [hs, Function.update_of_ne hu]
    exact hother u hu
  refine ⟨?_, fun h1 u => ?_, fun h1 => ⟨t, ?_, hothers⟩, fun h0 => ?_, fun h2 => ?_,
    fun u g hg hgo => ?_⟩
  · rcases hw with ⟨hw, -⟩ | ⟨hw, -⟩ <;> simp [hw]
  · rcases hw with ⟨hw, -⟩ | ⟨-, hc, -⟩
    · exact (h1 hw).elim
    · by_cases hu : u = t
      · subst hu
        rw [hself, hc]
        rfl
      · exact hothers u hu
  · rcases hw with ⟨-, hc⟩ | ⟨hw, -⟩
    · rw [hself, if_pos hc]
    · rw [hw] at h1
      cases h1
  · rcases hw with ⟨hw, -⟩ | ⟨hw, -⟩ <;> rw [hw] at h0 <;> cases h0
  · rcases hw with ⟨hw, -⟩ | ⟨-, -, hdone⟩
    · rw [hw] at h2
      cases h2
    · exact hdone
  · -- another call on `o` has neither claimed it nor seen it done
    have key : ∀ v, g ∈ s.stack v → claims o (s.stack v) = 0 ∨ g ∈ rest →
        g.Ok (s'.word o) (s'.started o) (s'.finished o) := by
      intro v hgv hz
      have hc : g.pc.claimed = false := by
        rcases hz with hz | hz
        · exact not_claimed_of_claims hz hgv hgo
        · exact not_claimed_of_claims hrest hz hgo
      refine ok_of_unclaimed hc fun hun => hne ?_
      have := h.frames v g hgv hgo
      simpa [Frame.Ok, hun] using this
    by_cases hu : u = t
    · subst hu
      rw [hs, Function.update_self] at hg
      rcases List.mem_cons.mp hg with rfl | hg
      · exact hok
      · exact key u (by simp [hst, hg]) (Or.inr hg)
    · rw [hs, Function.update_of_ne hu] at hg
      exact key u hg (Or.inl (hother u hu))

theorem step [DecidableEq T] {st' : List (Frame O F A)} (h : OnceInv s o)
    (hst : s.stack t = fr :: rest) (hs : s'.stack = Function.update s.stack t st')
    (he : WordEffect s s' fr rest st') : OnceInv s' o := by
  have hmem : ∀ g ∈ rest, g ∈ s.stack t := fun g hg => by simp [hst, hg]
  by_cases ho : fr.once = o
  · subst ho
    have hok := h.frames t fr (by simp [hst]) rfl
    cases he with
    | goOn pc hst' hc hnext hw hs' hf =>
        subst hst'
        refine h.frame hs (by rw [hw]) (by rw [hs']) (by rw [hf]) ?_ fun g hg hgo => ?_
        · rw [hst, claims_cons, claims_cons, hc]
        · rcases List.mem_cons.mp hg with rfl | hg
          · exact hnext _ _ hok
          · exact h.frames t g (hmem g hg) hgo
    | ret hst' hc h2 hw hs' hf =>
        subst hst'
        refine h.frame hs (by rw [hw]) (by rw [hs']) (by rw [hf]) ?_ fun g hg hgo => ?_
        · rw [hst, claims_cons, hc]
          simp
        · exact h.frames t g (hmem g hg) hgo
    | claim pc hst' h0 hpc hpc' hw hs' hf =>
        subst hst'
        have hne : s.word fr.once ≠ 1#32 := by simp [h0]
        have hz := h.free hne
        have hrest : claims fr.once rest = 0 := by
          have := hz t
          rw [hst, claims_cons] at this
          omega
        obtain ⟨hst0, hf0⟩ := h.zero h0
        refine h.act hst rfl hs hrest (fun u _ => hz u) (by simp [h0]) (Or.inl ⟨by simp [hw], ?_⟩) ?_
        · rcases hpc' with rfl | rfl <;> rfl
        · rw [hs', hf]
          rcases hpc' with rfl | rfl <;> exact ⟨hst0, hf0⟩
    | start hst' hpc hw hs' hf =>
        subst hst'
        obtain ⟨h1, hrest, hother⟩ := h.of_claimed hst rfl (by rw [hpc]; rfl)
        refine h.act hst rfl hs hrest hother (by simp [h1]) (Or.inl ⟨by rw [hw, h1], rfl⟩) ?_
        simp only [Frame.Ok, hpc] at hok
        simp [Frame.Ok, hs', hf, hok]
    | finish pc hst' hpc hpc' hw hs' hf =>
        subst hst'
        obtain ⟨h1, hrest, hother⟩ := h.of_claimed hst rfl (by rw [hpc]; rfl)
        simp only [Frame.Ok, hpc] at hok
        refine h.act hst rfl hs hrest hother (by simp [h1]) (Or.inl ⟨by rw [hw, h1], ?_⟩) ?_
        · rcases hpc' with rfl | rfl <;> rfl
        · rcases hpc' with rfl | rfl <;> simp [Frame.Ok, hs', hf, hok]
    | store hst' hpc hw hs' hf =>
        subst hst'
        obtain ⟨h1, hrest, hother⟩ := h.of_claimed hst rfl (by rw [hpc]; rfl)
        simp only [Frame.Ok, hpc] at hok
        refine h.act hst rfl hs hrest hother (by simp [h1]) (Or.inr ⟨by simp [hw], rfl, ?_, ?_⟩) trivial
        · exact ⟨fr.fn, by rw [hs', hok.1]⟩
        · rw [hf, hok.2]
  · have hkeep : s'.word o = s.word o ∧ s'.started o = s.started o ∧ s'.finished o = s.finished o := by
      cases he <;> simp_all [Function.update_of_ne (Ne.symm ho)]
    have hcases : st' = rest ∨ ∃ pc, st' = { fr with pc := pc } :: rest := by
      cases he with
      | ret hst' => exact Or.inl hst'
      | goOn pc hst' | claim pc hst' | finish pc hst' => exact Or.inr ⟨pc, hst'⟩
      | start hst' | store hst' => exact Or.inr ⟨_, hst'⟩
    refine h.frame hs hkeep.1 hkeep.2.1 hkeep.2.2 ?_ fun g hg hgo => ?_
    · rw [hst, claims_cons]
      rcases hcases with rfl | ⟨pc, rfl⟩ <;> simp [claims_cons, ho]
    · rcases hcases with rfl | ⟨pc, rfl⟩
      · exact h.frames t g (hmem g hg) hgo
      · rcases List.mem_cons.mp hg with rfl | hg
        · exact (ho hgo).elim
        · exact h.frames t g (hmem g hg) hgo

end OnceInv

variable [DecidableEq T]

structure Inv (sync : O → Fin 64) (s : State T O F A) : Prop where
  below : ∀ t fr rest, s.stack t = fr :: rest → Below rest
  syncOnly : ∀ t, ∀ fr ∈ s.stack t, fr.pc.syncOnly = true → fr.sync = true
  owner : ∀ e t, s.mu e = some t ↔ owns sync (s.stack t) = some e
  once : ∀ o, OnceInv s o

variable {sync : O → Fin 64} {s s' : State T O F A} {t : T}

omit [DecidableEq O] in
theorem MuEffect.owner {st' : List (Frame O F A)} (he : MuEffect sync s s' t (s.stack t) st')
    (h : ∀ e t, s.mu e = some t ↔ owns sync (s.stack t) = some e)
    (hs : s'.stack = Function.update s.stack t st') (e : Fin 64) (u : T) :
    s'.mu e = some u ↔ owns sync (s'.stack u) = some e := by
  have hu : ∀ u, u ≠ t → owns sync (s'.stack u) = owns sync (s.stack u) := by
    intro u hu
    rw [hs, Function.update_of_ne hu]
  have ht : owns sync (s'.stack t) = owns sync st' := by rw [hs, Function.update_self]
  cases he with
  | keep ho hm =>
      by_cases hut : u = t
      · subst hut
        rw [hm, ht, ho]
        exact h e u
      · rw [hm, hu u hut]
        exact h e u
  | take d ho ho' hfree hm =>
      by_cases hut : u = t
      · subst hut
        rw [hm, ht, ho']
        by_cases hed : e = d
        · simp [hed]
        · have hmu : s.mu e ≠ some u := fun hc => by
            rw [(h e u).mp hc] at ho
            cases ho
          simp [hed, hmu, Ne.symm hed]
      · rw [hm, hu u hut, ← h e u]
        by_cases hed : e = d
        · simp [hed, hfree, Ne.symm hut]
        · simp [hed]
  | drop d ho ho' hm =>
      have hd := (h d t).mpr ho
      by_cases hut : u = t
      · subst hut
        rw [hm, ht, ho']
        by_cases hed : e = d
        · simp [hed]
        · have hmu : s.mu e ≠ some u := fun hc => by
            rw [(h e u).mp hc] at ho
            exact hed (Option.some.inj ho)
          simp [hed, hmu]
      · rw [hm, hu u hut, ← h e u]
        by_cases hed : e = d
        · simp [hed, hd, Ne.symm hut]
        · simp [hed]

namespace Inv

theorem push {fr : Frame O F A} (h : Inv sync s) (hfr : fr.pc = .fastLoad)
    (hbelow : Below (s.stack t)) :
    Inv sync { s with stack := Function.update s.stack t (fr :: s.stack t) } := by
  refine ⟨fun u g rest hg => ?_, fun u g hg => ?_, fun e u => ?_, fun o => ?_⟩
  · by_cases hu : u = t
    · subst hu
      simp only [Function.update_self, List.cons.injEq] at hg
      exact hg.2 ▸ hbelow
    · simp only [Function.update_of_ne hu] at hg
      exact h.below u g rest hg
  · by_cases hu : u = t
    · subst hu
      simp only [Function.update_self, List.mem_cons] at hg
      rcases hg with rfl | hg
      · simp [hfr, Pc.syncOnly]
      · exact h.syncOnly u g hg
    · simp only [Function.update_of_ne hu] at hg
      exact h.syncOnly u g hg
  · have howns : owns sync (fr :: s.stack t) = owns sync (s.stack t) := by
      rw [owns_below hbelow]
      simp [owns, hfr, Pc.locked]
    have hmu : MuEffect sync s { s with stack := Function.update s.stack t (fr :: s.stack t) } t
        (s.stack t) (fr :: s.stack t) := .keep howns rfl
    exact hmu.owner h.owner rfl e u
  · refine (h.once o).frame rfl rfl rfl rfl ?_ fun g hg ho => ?_
    · rw [claims_cons]
      simp [hfr, Pc.claimed]
    · rcases List.mem_cons.mp hg with rfl | hg
      · simp [Frame.Ok, hfr]
      · exact (h.once o).frames t g hg ho

theorem next {a : Act O F A} (h : Inv sync s) (hs : step sync t a s = some s') :
    Inv sync s' := by
  rcases step_effect (h.syncOnly t) (h.below t) hs with
    ⟨fr, hfr, hbelow, rfl⟩ | ⟨fr, rest, st', hst, hs', hnew, hword, hmu⟩
  · exact h.push hfr hbelow
  · have hrest := h.below t fr rest hst
    refine ⟨fun u g r hg => ?_, fun u g hg => ?_, fun e u => ?_, fun o => ?_⟩
    · by_cases hu : u = t
      · subst hu
        rw [hs', Function.update_self] at hg
        rcases hnew with rfl | ⟨pc, rfl, -⟩
        · exact fun x hx => hrest x (by simp [hg, hx])
        · cases hg
          exact hrest
      · rw [hs', Function.update_of_ne hu] at hg
        exact h.below u g r hg
    · by_cases hu : u = t
      · subst hu
        rw [hs', Function.update_self] at hg
        rcases hnew with rfl | ⟨pc, rfl, hpc⟩
        · exact h.syncOnly u g (by simp [hst, hg])
        · rcases List.mem_cons.mp hg with rfl | hg
          · exact hpc
          · exact h.syncOnly u g (by simp [hst, hg])
      · rw [hs', Function.update_of_ne hu] at hg
        exact h.syncOnly u g hg
    · exact MuEffect.owner (hst ▸ hmu) h.owner hs' e u
    · exact (h.once o).step hst hs' hword

omit [DecidableEq T] in
theorem initial (sync : O → Fin 64) : Inv sync (initial : State T O F A) := by
  refine ⟨nofun, nofun, fun e t => ⟨nofun, nofun⟩, fun o => ⟨Or.inl rfl, fun _ _ => rfl, ?_,
    fun _ => ⟨rfl, rfl⟩, ?_, nofun⟩⟩
  · intro h1
    cases h1
  · intro h2
    cases h2

end Inv

end

/-! ## Runs -/

section

variable [DecidableEq T] [DecidableEq O]

/-- The states reached when `sync` maps the `nsync_once`s onto the entries. -/
def Reachable (sync : O → Fin 64) : State T O F A → Prop :=
  Reach (fun (i : T × Act O F A) s => step sync i.1 i.2 s) (fun _ _ => True) initial

variable {sync : O → Fin 64} {s s' : State T O F A} {t : T} {fr : Frame O F A}
  {rest : List (Frame O F A)}

theorem Reachable.inv (h : Reachable sync s) : Inv sync s :=
  Reach.invariant h (Inv.initial sync) fun _ _ _ _ hi _ hs => hi.next hs

omit [DecidableEq T] in
theorem Inv.started_le (h : Inv sync s) (o : O) : (s.started o).length ≤ 1 := by
  have hinv := h.once o
  rcases hinv.range with h0 | h1 | h2
  · simp [hinv.zero h0]
  · obtain ⟨t, ht, -⟩ := hinv.one h1
    have hpos : 0 < claims o (s.stack t) := by omega
    obtain ⟨fr, hfr, hc⟩ := List.countP_pos_iff.mp hpos
    simp only [Bool.and_eq_true, decide_eq_true_eq] at hc
    have hok := hinv.frames t fr hfr hc.1
    unfold Frame.Ok at hok
    cases hpc : fr.pc <;> simp_all [Pc.claimed]
  · obtain ⟨⟨f, hf⟩, -⟩ := hinv.two h2
    simp [hf]

/-- A call that returns has seen the word at 2. -/
theorem Inv.word_of_return {a : Act O F A} (h : Inv sync s) (hst : s.stack t = fr :: rest)
    (hs : step sync t a s = some s') (hret : s'.stack t = rest) : s.word fr.once = 2#32 := by
  have hlen : ∀ g : Frame O F A, g :: rest ≠ rest := fun g hg => by
    simpa using congrArg List.length hg
  rcases step_effect (h.syncOnly t) (h.below t) hs with
    ⟨g, -, -, rfl⟩ | ⟨g, r, st', hst', hs', hnew, hword, -⟩
  · have := congrArg List.length hret
    simp [hst] at this
    omega
  · rw [hst] at hst'
    cases hst'
    rw [hs', Function.update_self] at hret
    subst hret
    have hok := (h.once fr.once).frames t fr (by simp [hst]) rfl
    cases hword with
    | ret _ _ h2 => exact h2 _ _ hok
    | goOn _ hg | claim _ hg | finish _ hg => exact (hlen _ hg.symm).elim
    | start hg | store hg => exact (hlen _ hg.symm).elim

theorem Inv.word_step {a : Act O F A} (h : Inv sync s) (hs : step sync t a s = some s') (o : O) :
    s'.word o = s.word o ∨ (s.word o = 0#32 ∧ s'.word o = 1#32) ∨
      (s.word o = 1#32 ∧ s'.word o = 2#32) := by
  rcases step_effect (h.syncOnly t) (h.below t) hs with
    ⟨fr, -, -, rfl⟩ | ⟨fr, rest, st', hst, -, -, hword, -⟩
  · exact Or.inl rfl
  · by_cases ho : o = fr.once
    · subst ho
      cases hword with
      | goOn _ _ _ _ hw | ret _ _ _ hw | start _ _ hw | finish _ _ _ _ hw => exact Or.inl (by rw [hw])
      | claim _ _ h0 _ _ hw => exact Or.inr (Or.inl ⟨h0, by simp [hw]⟩)
      | store _ hpc hw =>
          have hc := ((h.once fr.once).of_claimed hst rfl (by rw [hpc]; rfl)).1
          exact Or.inr (Or.inr ⟨hc, by simp [hw]⟩)
    · left
      cases hword <;> simp_all

omit [DecidableEq T] in
theorem Inv.not_owner (h : Inv sync s) (hst : s.stack t = fr :: rest)
    (hpc : fr.pc.locked = false) (e : Fin 64) : s.mu e ≠ some t := by
  intro hmu
  have := (h.owner e t).mp hmu
  simp [hst, owns, hpc] at this

/-- For every `nsync_once` at most one function is started, and only once; a call
on it returns only after that function has finished; its word goes from 0 to 1
to 2; a thread that is about to start or is running a supplied function holds no
`once_mu`; and a thread that is about to lock an entry does not hold it. -/
theorem run_once_correct (h : Reachable sync s) :
    (∀ o, (s.started o).length ≤ 1) ∧
    (∀ t a s' fr rest, s.stack t = fr :: rest → step sync t a s = some s' → s'.stack t = rest →
      (∃ f, s.started fr.once = [f]) ∧ s.finished fr.once = true) ∧
    (∀ t a s' o, step sync t a s = some s' → s'.word o = s.word o ∨
      (s.word o = 0#32 ∧ s'.word o = 1#32) ∨ (s.word o = 1#32 ∧ s'.word o = 2#32)) ∧
    (∀ t fr rest, s.stack t = fr :: rest → fr.pc = .start ∨ fr.pc = .running →
      ∀ e, s.mu e ≠ some t) ∧
    ∀ t fr rest, s.stack t = fr :: rest → (∃ o, fr.pc = .lock o) ∨ fr.pc = .relock ∨
      fr.pc = .cvRelock → s.mu (sync fr.once) ≠ some t := by
  have hinv := h.inv
  refine ⟨hinv.started_le, ?_, fun t a s' o hs => hinv.word_step hs o, ?_, ?_⟩
  · intro t a s' fr rest hst hs hret
    exact (hinv.once fr.once).two (hinv.word_of_return hst hs hret)
  · intro t fr rest hst hpc
    refine hinv.not_owner hst ?_
    rcases hpc with hpc | hpc <;> simp [hpc, Pc.locked]
  · intro t fr rest hst hpc
    refine hinv.not_owner hst ?_ _
    rcases hpc with ⟨o, hpc⟩ | hpc | hpc <;> simp [hpc, Pc.locked]

/-- The function of one `nsync_once` runs another that shares its entry. -/
theorem run_once_nested : ∃ s : State (Fin 2) (Fin 2) ℕ ℕ, Reachable (fun _ => 0) s ∧
    (s.stack 0).map Frame.pc = [.lock 0#32, .running] ∧ (s.started 0).length ≤ 1 ∧
    s.mu 0 ≠ some 0 := by
  obtain ⟨s, hs, hf⟩ := Reach.exists_of_exec_all
    (fun (i : Fin 2 × Act (Fin 2) ℕ ℕ) s => step (fun _ => 0) i.1 i.2 s) initial
    ([(0, .runOnce 0 5)] ++ List.replicate 6 (0, .step) ++ [(0, .runOnceArg 1 6 7)] ++
      List.replicate 2 (0, .step))
    (fun s => decide ((s.stack 0).map Frame.pc = [.lock 0#32, .running])) (by decide +kernel)
  have hpc := of_decide_eq_true hf
  obtain ⟨hone, -, -, -, hfree⟩ := run_once_correct hs
  refine ⟨s, hs, hpc, hone 0, ?_⟩
  cases hst : s.stack 0 with
  | nil => simp [hst] at hpc
  | cons fr rest =>
      simp only [hst, List.map_cons, List.cons.injEq] at hpc
      exact hfree 0 fr rest hst (Or.inl ⟨0#32, hpc.1⟩)

end

end Nsync.Once
