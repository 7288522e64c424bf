import Nsync.Mu.CvWord

/-!
# The history of the queues of condition variables

History variables record when a waiter joined the queue of a condition variable,
which waiters a signaller or broadcaster has to remove, and who removed a waiter
in its current wait.
-/

namespace Nsync.Mu

open Nsync.Lib

variable {T σ : Type}

/-! ## History -/

/-- The field `now` counts steps and `since` is the time at which a thread last
joined a queue.  The waiters in `pend t` are those that were queued at the first
load of the current broadcast of `t`, or the first one of the queue that the
current signal of `t` found, as far as they have not been removed since.  The
last two fields say whether another thread, or the waiter itself, has taken it
off the queue since its current or last wait began. -/
structure CvHistory (T : Type) where
  now : ℕ
  since : T → ℕ
  pend : T → List (Addr × T)
  signalled : T → Bool
  selfRemoved : T → Bool

def CvHistory.empty : CvHistory T :=
  ⟨0, fun _ => 0, fun _ => [], fun _ => false, fun _ => false⟩

def JoinsCv (s s' : State T σ) (x : T) : Prop :=
  ∃ c, x ∉ (s.cv c).waiters ∧ x ∈ (s'.cv c).waiters

def LeavesCv (s s' : State T σ) (x : T) : Prop :=
  ∃ c, x ∈ (s.cv c).waiters ∧ x ∉ (s'.cv c).waiters

/-- The waiters that a thread at this place begins to be responsible for. -/
def Pc.aims (s : State T σ) : Pc T → Option (List (Addr × T))
  | .signal l .loadWord =>
      some (if l.broadcast then (s.cv l.pcv).waiters.map fun x => (l.pcv, x) else [])
  | .signal l (.spin (.cas old)) =>
      if l.broadcast = false ∧ (s.cv l.pcv).word = old then
        some ((s.cv l.pcv).waiters.head?.toList.map fun x => (l.pcv, x))
      else none
  | _ => none

def Act.aims (s : State T σ) (t : T) : Act σ → Option (List (Addr × T))
  | .step _ => (s.pc t).aims s
  | _ => none

def Pc.startsCvWait : Pc T → Bool
  | .cvWait _ .storeWaiting => true
  | _ => false

open Classical in
/-- Those of the listed waiters that are still queued. -/
noncomputable def stillQueued (s : State T σ) (pend : List (Addr × T)) : List (Addr × T) :=
  pend.filter fun p => p.2 ∈ (s.cv p.1).waiters

open Classical in
/-- The history after the action `a` of `t` from `s` to `s'`. -/
noncomputable def CvHistory.next (t : T) (a : Act σ) (s s' : State T σ) (h : CvHistory T) :
    CvHistory T where
  now := h.now + 1
  since x := if JoinsCv s s' x then h.now else h.since x
  pend u := stillQueued s' ((if u = t then a.aims s t else none).getD (h.pend u))
  signalled x :=
    if x = t ∧ (s.pc t).startsCvWait = true then false
    else h.signalled x || decide (x ≠ t ∧ LeavesCv s s' x)
  selfRemoved x :=
    if x = t ∧ (s.pc t).startsCvWait = true then false
    else h.selfRemoved x || decide (x = t ∧ LeavesCv s s' x)

/-! ## The order of a queue -/

section

variable [DecidableEq T] {E : Env σ} {s s' : State T σ} {t : T}

/-- A step shortens the queue of a condition variable, or appends the thread. -/
theorem step_cvQueue {a : Act σ} (hs : step E t a s = some s') (hop : (s.pc t).op ≠ .debug)
    (c : Addr) : ((s'.cv c).waiters.Sublist (s.cv c).waiters) ∨
      (s'.cv c).waiters = (s.cv c).waiters ++ [t] := by
  have hset : ∀ (d : Addr) (q : Cv T), s'.cv = Function.update s.cv d q →
      q.waiters.Sublist (s.cv d).waiters → (s'.cv c).waiters.Sublist (s.cv c).waiters := by
    intro d q hcv hq
    rw [hcv]
    rcases eq_or_ne c d with rfl | hcd
    · rwa [Function.update_self]
    · rw [Function.update_of_ne hcd]
  have hsame : s'.cv = s.cv → (s'.cv c).waiters.Sublist (s.cv c).waiters := by
    intro hcv
    rw [hcv]
  rcases step_cv hs with ⟨hcv, -⟩ | ⟨l, p, ch, hpc, hs'⟩ | ⟨l, p, hpc, rfl⟩ | hdbg | rfl
  · exact Or.inl (hsame hcv)
  · rcases p with _ | _ | ⟨_ | _⟩ | _ | _ | _ | _ | _ | ⟨_ | _⟩ | _ | _ | ⟨_, _ | _⟩ | _ | _ | _ <;>
      simp only [cvWaitWithDeadline] at hs'
    case sem =>
      cases ch <;> simp only [semWaitWithCancel, semP] at hs' <;> split at hs' <;> cases hs'
      all_goals exact Or.inl (hsame rfl)
    case enqueue.cas =>
      split at hs' <;> cases hs'
      · rcases eq_or_ne c l.pcv with rfl | hc
        · exact Or.inr (by simp [State.setPc, State.setCv])
        · exact Or.inl (by simp [State.setPc, State.setCv, hc])
      · exact Or.inl (hsame rfl)
    all_goals
      left
      repeat' split at hs'
    all_goals
      cases hs'
      first
      | exact hsame rfl
      | exact hset l.pcv _ rfl (List.Sublist.refl _)
      | exact hset l.pcv _ rfl List.erase_sublist
  · left
    rcases p with _ | ⟨_ | _⟩ | ⟨_, _, _ | _⟩ | _ | ⟨_, _, _ | _⟩ | _ <;>
      simp only [cvSignal, signalDone] at hset hsame ⊢ <;> repeat' split
    all_goals
      first
      | exact List.Sublist.refl _
      | (rcases eq_or_ne c l.pcv with rfl | hc
         · simp [State.setPc, State.setCv, State.setWtr, List.erase_sublist]
         · simp [State.setPc, State.setCv, State.setWtr, hc])
  · exact (hop hdbg).elim
  · cases hs
    exact Or.inl (hsame rfl)

/-! ## The waiters that a signaller must remove -/

/-- Where the thread can be while it has waiters to remove. -/
def Pc.PendOk (pend : List (Addr × T)) : Pc T → Prop
  | .signal l p => (∀ q ∈ pend, q.1 = l.pcv) ∧
      match p with
      | .loadWord | .storeWord _ => pend = []
      | .removeFirst _ x _ => ∀ q ∈ pend, q.2 = x
      | .spin _ | .loop _ | .remove _ _ _ => l.broadcast = false → pend = []
  | _ => pend = []

omit [DecidableEq T] in
theorem Pc.pendOk_nil (p : Pc T) : p.PendOk [] := by
  cases p with
  | signal l p => cases p <;> simp [Pc.PendOk]
  | _ => rfl

omit [DecidableEq T] in
theorem Pc.PendOk.mono {pend pend' : List (Addr × T)} {p : Pc T} (h : p.PendOk pend)
    (hsub : pend' ⊆ pend) : p.PendOk pend' := by
  have hnil : pend = [] → pend' = [] := by
    rintro rfl
    exact List.subset_nil.mp hsub
  cases p with
  | signal l p =>
      refine ⟨fun q hq => h.1 q (hsub hq), ?_⟩
      have hp := h.2
      cases p with
      | loadWord | storeWord _ => exact hnil hp
      | removeFirst _ x _ => exact fun q hq => hp q (hsub hq)
      | spin _ | loop _ | remove _ _ _ => exact fun hb => hnil (hp hb)
  | _ => exact hnil h

omit [DecidableEq T] in
theorem Pc.PendOk.eq_nil {pend : List (Addr × T)} {p : Pc T} (h : p.PendOk pend)
    (hp : ∀ l q, p ≠ .signal l q) : pend = [] := by
  cases p with
  | signal l q => exact (hp l q rfl).elim
  | _ => exact h

omit [DecidableEq T] in
theorem mem_stillQueued {pend : List (Addr × T)} {q : Addr × T} :
    q ∈ stillQueued s pend ↔ q ∈ pend ∧ q.2 ∈ (s.cv q.1).waiters := by
  simp [stillQueued]

omit [DecidableEq T] in
theorem stillQueued_subset (pend : List (Addr × T)) : stillQueued s pend ⊆ pend :=
  fun _ hq => (mem_stillQueued.mp hq).1

omit [DecidableEq T] in
/-- Nothing is pending on an empty queue. -/
theorem stillQueued_eq_nil {pend : List (Addr × T)} {c : Addr} (hc : ∀ q ∈ pend, q.1 = c)
    (hnil : (s.cv c).waiters = []) : stillQueued s pend = [] := by
  rw [List.eq_nil_iff_forall_not_mem]
  intro q hq
  obtain ⟨hmem, hin⟩ := mem_stillQueued.mp hq
  rw [hc q hmem, hnil] at hin
  cases hin

/-- A signaller keeps its pending waiters in sight until it has removed them. -/
theorem cvSignal_pendOk {l : Signal T} {p : SignalPc T} {pend : List (Addr × T)}
    (hk : CvKnown s) (hnd : ∀ c, (s.cv c).waiters.Nodup) (hpc : s.pc t = .signal l p)
    (hp : (s.pc t).PendOk pend) :
    ((cvSignal s t l p).pc t).PendOk
      (stillQueued (cvSignal s t l p) (((s.pc t).aims s).getD pend)) := by
  have hkt := hk.pcs t
  rw [hpc] at hkt hp ⊢
  obtain ⟨hcv, hp⟩ := hp
  have hmono : ∀ {q : Pc T} {s₁ : State T σ}, q.PendOk pend → q.PendOk (stillQueued s₁ pend) :=
    fun hq => hq.mono (stillQueued_subset _)
  rcases p with _ | ⟨_ | old⟩ | ⟨old, x, _ | _⟩ | old | ⟨old, x, _ | _⟩ | old <;>
    simp only [cvSignal, Pc.aims, Option.getD_none, Option.getD_some]
  case loadWord =>
    have hall : ∀ q ∈ (if l.broadcast = true then (s.cv l.pcv).waiters.map fun x => (l.pcv, x)
        else []), q.1 = l.pcv := by
      intro q hq
      split at hq
      · obtain ⟨x, -, rfl⟩ := List.mem_map.mp hq
        rfl
      · cases hq
    split
    · rw [State.setPc_self]
      refine ⟨fun q hq => hall q (stillQueued_subset _ hq), fun hb => ?_⟩
      simp [hb, stillQueued]
    · next hbit =>
        have hnil : (s.cv l.pcv).waiters = [] := by
          by_contra hne
          have hset := hk.set l.pcv hne
          simp [hset] at hbit
        rw [stillQueued_eq_nil (s := s.setPc t (.client l.held)) hall hnil]
        exact Pc.pendOk_nil _
  case spin.load =>
    split <;> rw [State.setPc_self] <;> exact hmono ⟨hcv, hp⟩
  case spin.cas =>
    by_cases hw : (s.cv l.pcv).word = old
    · rw [if_pos hw]
      cases hwl : (s.cv l.pcv).waiters with
      | nil =>
          have haims : ∀ q ∈ (if l.broadcast = false ∧ (s.cv l.pcv).word = old then
              some (([] : List T).head?.toList.map fun x => (l.pcv, x)) else none).getD pend,
              q.1 = l.pcv := by
            intro q hq
            split at hq
            · cases hq
            · exact hcv q hq
          rw [stillQueued_eq_nil haims (by simp [State.setPc, State.setCv])]
          exact Pc.pendOk_nil _
      | cons first rest =>
          simp only
          split
          · next hb =>
              rw [State.setPc_self, if_neg (by simp [hb])]
              exact hmono ⟨hcv, fun h => by simp [hb] at h⟩
          · next hb =>
              rw [State.setPc_self, if_pos ⟨by simpa using hb, hw⟩]
              refine Pc.PendOk.mono ?_ (stillQueued_subset _)
              simp [Pc.PendOk]
    · rw [if_neg hw, if_neg (fun h => hw h.2), State.setPc_self]
      exact hmono ⟨hcv, hp⟩
  case removeFirst.load =>
    rw [State.setPc_self]
    exact hmono ⟨hcv, hp⟩
  case removeFirst.cas =>
    split
    · have hgone : ∀ s₁ : State T σ, s₁.cv = Function.update s.cv l.pcv
          { s.cv l.pcv with waiters := (s.cv l.pcv).waiters.erase x } →
          stillQueued s₁ pend = [] := by
        intro s₁ hs₁
        rw [List.eq_nil_iff_forall_not_mem]
        intro q hq
        obtain ⟨hmem, hin⟩ := mem_stillQueued.mp hq
        rw [hcv q hmem, hp q hmem, hs₁, Function.update_self] at hin
        exact (hnd l.pcv).not_mem_erase hin
      split
      · rw [hgone _ rfl]
        exact Pc.pendOk_nil _
      · rw [hgone _ rfl]
        exact Pc.pendOk_nil _
    · rw [State.setPc_self]
      exact hmono ⟨hcv, hp⟩
  case loop =>
    split
    · next hnone =>
        have hnil : stillQueued (signalDone s t l old) pend = [] := by
          cases hb : l.broadcast with
          | false =>
              rw [hp hb]
              rfl
          | true =>
              refine stillQueued_eq_nil hcv ?_
              have hhead := hkt.2 hb
              rw [hnone] at hhead
              exact List.head?_eq_none_iff.mp hhead.symm
        rw [hnil]
        exact Pc.pendOk_nil _
    · repeat' split
      all_goals
        rw [State.setPc_self]
        exact hmono ⟨hcv, hp⟩
  case remove.load =>
    rw [State.setPc_self]
    exact hmono ⟨hcv, hp⟩
  case remove.cas =>
    split <;> rw [State.setPc_self] <;> exact hmono ⟨hcv, hp⟩
  case storeWord =>
    have hnil : ∀ s₁ : State T σ, stillQueued s₁ pend = [] := by
      intro s₁
      rw [hp]
      rfl
    split <;> rw [hnil] <;> exact Pc.pendOk_nil _

/-! ## Who removed a waiter -/

/-- The locals of the wait on a condition variable that the thread has queued
itself for. -/
def Pc.cvLocals : Pc T → Option CvWait
  | .lock _ _ (.cvWait l) _ => some l
  | .lockSlow _ (.cvWait l) _ => some l
  | .unlock _ (.cvWait l) _ => some l
  | .unlockSlow _ (.cvWait l) _ => some l
  | .cvWait l p =>
      match p with
      | .storeWaiting | .loadMuWord | .enqueue _ => none
      | _ => some l
  | _ => none

/-- The thread has begun a wait and not yet queued itself. -/
def Pc.cvPreparing : Pc T → Bool
  | .cvWait _ p =>
      match p with
      | .loadMuWord | .enqueue _ => true
      | _ => false
  | _ => false

/-- The thread is about to take itself off the queue. -/
def Pc.cvMine : Pc T → Bool
  | .cvWait _ (.remove _ _) => true
  | _ => false

/-- The outcome of a wait tells who removed the waiter of `x` from its queue. -/
structure WaitOk (signalled selfRemoved : Bool) (cv : Addr → Cv T) (x : T) (p : Pc T) : Prop where
  preparing : p.cvPreparing = true → signalled = false ∧ selfRemoved = false
  mine : p.cvMine = true → signalled = false ∧ selfRemoved = false
  ok : ∀ l, p.cvLocals = some l → l.outcome = .ok →
    selfRemoved = false ∧ (signalled = true ↔ x ∉ (cv l.pcv).waiters)
  late : ∀ l, p.cvLocals = some l → l.outcome ≠ .ok → p.cvMine = false →
    selfRemoved = true ∧ signalled = false

/-- A thread goes from `q` to `p` without a change to its wait. -/
structure SameWait (q p : Pc T) : Prop where
  preparing : p.cvPreparing = true → q.cvPreparing = true
  mine : p.cvMine = true → q.cvMine = true
  stays : p.cvLocals ≠ none → q.cvMine = true → p.cvMine = true
  locals : ∀ l, p.cvLocals = some l → ∃ l₀, q.cvLocals = some l₀ ∧ l₀.outcome = l.outcome ∧
    l₀.pcv = l.pcv

omit [DecidableEq T] in
theorem WaitOk.same {b b' : Bool} {cv cv' : Addr → Cv T} {x : T} {p q : Pc T}
    (h : WaitOk b b' cv x q) (hp : SameWait q p)
    (hcv : ∀ c, x ∈ (cv' c).waiters ↔ x ∈ (cv c).waiters) : WaitOk b b' cv' x p where
  preparing hpp := h.preparing (hp.preparing hpp)
  mine hpm := h.mine (hp.mine hpm)
  ok l hl hout := by
    obtain ⟨l₀, hl₀, ho, hc⟩ := hp.locals l hl
    rw [hcv, ← hc]
    exact h.ok l₀ hl₀ (ho.trans hout)
  late l hl hout hm := by
    obtain ⟨l₀, hl₀, ho, hc⟩ := hp.locals l hl
    refine h.late l₀ hl₀ (fun hok => hout (ho.symm.trans hok)) ?_
    by_contra hmine
    rw [hp.stays (by simp [hl]) (by simpa using hmine)] at hm
    cases hm

omit [DecidableEq T] in
/-- Outside a wait there is nothing to say. -/
theorem WaitOk.of_none {b b' : Bool} {cv : Addr → Cv T} {x : T} {p : Pc T}
    (hprep : p.cvPreparing = false) (hmine : p.cvMine = false) (hl : p.cvLocals = none) :
    WaitOk b b' cv x p where
  preparing h := by simp [hprep] at h
  mine h := by simp [hmine] at h
  ok l h := by simp [hl] at h
  late l h := by simp [hl] at h

omit [DecidableEq T] in
theorem SameWait.of_none {q p : Pc T} (hprep : p.cvPreparing = false) (hmine : p.cvMine = false)
    (hl : p.cvLocals = none) : SameWait q p where
  preparing h := by simp [hprep] at h
  mine h := by simp [hmine] at h
  stays h := (h hl).elim
  locals l h := by simp [hl] at h

omit [DecidableEq T] in
/-- The mutex is released or acquired on behalf of the same wait. -/
theorem SameWait.of_locals {q p : Pc T} (hprep : p.cvPreparing = false) (hmine : p.cvMine = false)
    (hq : q.cvMine = false) (hl : p.cvLocals = q.cvLocals) : SameWait q p where
  preparing h := by simp [hprep] at h
  mine h := by simp [hmine] at h
  stays _ h := by simp [hq] at h
  locals l h := ⟨l, hl ▸ h, rfl, rfl⟩

theorem SameWait.leaves {q : Pc T} (s : State T σ) (p : Pc T) (hprep : p.cvPreparing = false)
    (hmine : p.cvMine = false) (hl : p.cvLocals = none) : SameWait q ((s.setPc t p).pc t) := by
  rw [State.setPc_self]
  exact .of_none hprep hmine hl

theorem SameWait.moves {q p : Pc T} (s : State T σ) (hprep : p.cvPreparing = false)
    (hmine : p.cvMine = false) (hq : q.cvMine = false) (hl : p.cvLocals = q.cvLocals) :
    SameWait q ((s.setPc t p).pc t) := by
  rw [State.setPc_self]
  exact .of_locals hprep hmine hq hl

theorem afterLock_sameWait {q : Pc T} (s : State T σ) (t : T) (m : Mode) (k : LockCont) :
    SameWait q ((afterLock s t m k).pc t) := by
  cases k <;> exact .of_none (by simp [afterLock, State.setPc, Pc.cvPreparing])
    (by simp [afterLock, State.setPc, Pc.cvMine]) (by simp [afterLock, State.setPc, Pc.cvLocals])

/-- A thread in `nsync_mu_unlock_slow_` stays there, or returns to its caller. -/
theorem muUnlockSlow_sameWait (m : Mode) (k : UnlockCont) (p : UnlockSlowPc T) :
    SameWait (.unlockSlow m k p) ((muUnlockSlow E s t m k p).pc t) := by
  obtain ⟨q, hq, hcase⟩ := muUnlockSlow_goes (E := E) (s := s) (t := t) m k p
  rw [hq, Function.update_self]
  rcases hcase with rfl | rfl | ⟨p', rfl⟩
  · cases k <;> exact .of_locals rfl rfl rfl rfl
  · exact .of_none rfl rfl rfl
  · exact .of_locals rfl rfl rfl (by cases k <;> rfl)

/-- A step that is not one of a wait on a condition variable keeps the wait that
it is made for. -/
theorem step_sameWait {a : Act σ} (hs : step E t a s = some s')
    (hcv : ∀ l p, s.pc t ≠ .cvWait l p) : SameWait (s.pc t) (s'.pc t) := by
  cases a with
  | post =>
      cases hs
      exact ⟨id, id, fun _ h => h, fun l hl => ⟨l, hl, rfl, rfl⟩⟩
  | call c =>
      simp only [step] at hs
      split at hs
      · next held hpc =>
          cases c <;> simp only [callStep] at hs
          case muWait | cvWait =>
            cases held <;> cases hs
            rw [State.setPc_self]
            exact .of_none rfl rfl rfl
          case signal | debug =>
            cases hs
            rw [State.setPc_self]
            exact .of_none rfl rfl rfl
          case setProt =>
            split at hs <;> cases hs
            exact .of_none (by rw [hpc]; rfl) (by rw [hpc]; rfl) (by rw [hpc]; rfl)
          all_goals
            split at hs <;> cases hs
            rw [State.setPc_self]
            exact .of_none rfl rfl rfl
      · cases hs
  | step ch =>
      simp only [step] at hs
      cases hpc : s.pc t <;> simp only [hpc, Option.some.injEq] at hs
      case client | panicked => cases hs
      case cvWait l p => exact (hcv l p hpc).elim
      case lock m b k p =>
        subst hs
        cases p <;> simp only [muLock] <;> repeat' split
        all_goals
          first
          | exact afterLock_sameWait ..
          | exact .leaves s _ rfl rfl rfl
          | exact .moves _ rfl rfl rfl (by cases k <;> rfl)
      case lockSlow l k p =>
        rcases p with _ | _ | _ | _ | ⟨_ | _⟩ | _ | _ <;> simp only [muLockSlow] at hs
        case sem =>
          rw [semP_pc hs]
          exact .of_locals rfl rfl rfl (by cases k <;> rfl)
        all_goals repeat' split at hs
        all_goals
          cases hs
          first
          | exact afterLock_sameWait ..
          | exact .moves _ rfl rfl rfl (by cases k <;> rfl)
      case unlock kind k p =>
        subst hs
        have hunlock : ∀ s₁ : State T σ, SameWait (.unlock kind k p) ((afterUnlock s₁ t k).pc t) := by
          intro s₁
          cases k <;> exact .moves _ rfl rfl rfl rfl
        cases p <;> simp only [muUnlock] <;> repeat' split
        all_goals
          first
          | exact .leaves s _ rfl rfl rfl
          | exact .moves s rfl rfl rfl (by cases k <;> rfl)
          | exact hunlock _
      case unlockSlow => exact hs ▸ muUnlockSlow_sameWait ..
      case muWait l p =>
        rcases p with _ | _ | _ | _ | ⟨_ | _⟩ | ⟨_ | _⟩ | _ | _ | _ | _ | _ | _ | _ | _ |
            ⟨_, _ | _⟩ | _ | _ | _ | _ <;> simp only [muWaitWithDeadline] at hs
        case sem =>
          obtain ⟨o, hpc'⟩ := semWaitWithCancel_pc hs
          rw [hpc']
          cases o <;> exact .of_none rfl rfl rfl
        all_goals repeat' split at hs
        all_goals
          cases hs
          exact .leaves _ _ rfl rfl rfl
      case signal l p =>
        subst hs
        rcases p with _ | ⟨_ | _⟩ | ⟨_, _, _ | _⟩ | _ | ⟨_, _, _ | _⟩ | _ <;>
          simp only [cvSignal, signalDone] <;> repeat' split
        all_goals exact .leaves _ _ rfl rfl rfl
      case wakeWaiters l p =>
        subst hs
        have hstart : ∀ s₁ : State T σ, SameWait (.wakeWaiters l p) ((wakeStart s₁ t l).pc t) := by
          intro s₁
          unfold wakeStart
          split <;> exact .leaves _ _ rfl rfl rfl
        rcases p with _ | _ | ⟨_, _ | _⟩ | _ | x <;> simp only [wakeWaiters] <;> repeat' split
        all_goals first | exact hstart _ | exact .leaves _ _ rfl rfl rfl
      case debug l p =>
        subst hs
        rcases p with _ | ⟨_ | _⟩ | _ <;> simp only [debugState] <;> repeat' split
        all_goals exact .leaves _ _ rfl rfl rfl

/-- The steps of a wait that matter for who removes the waiter. -/
inductive CvWaitStep (t : T) (l : CvWait) (s s' : State T σ) : CvWaitPc → Prop where
  | same {p : CvWaitPc} (hp : SameWait (.cvWait l p) (s'.pc t)) (hstart : p ≠ .storeWaiting)
      (hcv : ∀ c, (s'.cv c).waiters = (s.cv c).waiters) : CvWaitStep t l s s' p
  | start (hpc : s'.pc t = .cvWait l .loadMuWord) : CvWaitStep t l s s' .storeWaiting
  | join {old : Word} (hpc : s'.pc t = .cvWait l (.loadRemoveCount old))
      (hcv : (s'.cv l.pcv).waiters = (s.cv l.pcv).waiters ++ [t]) :
      CvWaitStep t l s s' (.enqueue (.cas old))
  | decide {old : Word}
      (hpc : s'.pc t = .cvWait { l with outcome := l.semOutcome } (.remove old .load))
      (hcv : s'.cv = s.cv) : CvWaitStep t l s s' (.checkCount old)
  | remove {old old' rc : Word} (hpc : s'.pc t = .cvWait l (.clearWaiting old'))
      (hcv : (s'.cv l.pcv).waiters = (s.cv l.pcv).waiters.erase t) :
      CvWaitStep t l s s' (.remove old (.cas rc))

theorem cvWaitWithDeadline_step {l : CvWait} {ch : Choice} {p : CvWaitPc}
    (hs : cvWaitWithDeadline s t l ch p = some s') : CvWaitStep t l s s' p := by
  have hword : ∀ w c, ((s.setCv l.pcv { s.cv l.pcv with word := w }).cv c).waiters =
      (s.cv c).waiters := State.waiters_setCv s l.pcv
  have hgo : ∀ {q : CvWaitPc} {l' : CvWait} {p' : CvWaitPc}, l'.outcome = l.outcome →
      l'.pcv = l.pcv → (Pc.cvWait l q : Pc T).cvLocals = some l →
      (Pc.cvWait l' p' : Pc T).cvLocals = some l' →
      (Pc.cvWait l q : Pc T).cvMine = (Pc.cvWait l' p' : Pc T).cvMine →
      (Pc.cvWait l' p' : Pc T).cvPreparing = false →
      SameWait (.cvWait l q : Pc T) (.cvWait l' p') := by
    intro q l' p' ho hc hq hp hm hprep
    refine ⟨fun h => by simp [hprep] at h, fun h => hm.trans h, fun _ h => hm.symm.trans h,
      fun l₁ hl₁ => ⟨l, hq, ?_⟩⟩
    rw [hp, Option.some.injEq] at hl₁
    subst hl₁
    exact ⟨ho.symm, hc.symm⟩
  have hset : ∀ (s₁ : State T σ) {q : Pc T} {p' : Pc T}, SameWait q p' →
      SameWait q ((s₁.setPc t p').pc t) := by
    intro s₁ q p' h
    rwa [State.setPc_self]
  rcases p with _ | _ | ⟨_ | _⟩ | _ | _ | _ | _ | _ | ⟨_ | _⟩ | _ | _ | ⟨_, _ | _⟩ | _ | _ | _ <;>
    simp only [cvWaitWithDeadline] at hs
  case storeWaiting =>
    cases hs
    exact .start (State.setPc_self ..)
  case sem =>
    obtain ⟨o, hpc'⟩ := semWaitWithCancel_pc hs
    refine .same ?_ (by rintro ⟨⟩) fun c => ?_
    · rw [hpc']
      cases o <;> exact hgo rfl rfl rfl rfl rfl rfl
    · cases ch <;> simp only [semWaitWithCancel, semP] at hs <;> split at hs <;> cases hs
      all_goals rfl
  case loadMuWord | enqueue.load =>
    repeat' split at hs
    all_goals
      cases hs
      refine .same ?_ (by rintro ⟨⟩) fun c => rfl
      rw [State.setPc_self]
      exact ⟨fun _ => rfl, fun h => h, fun _ h => h, fun _ h => by cases h⟩
  case enqueue.cas =>
    split at hs <;> cases hs
    · exact .join (State.setPc_self ..) (by simp [State.setPc, State.setCv])
    · refine .same ?_ (by rintro ⟨⟩) fun c => rfl
      rw [State.setPc_self]
      exact ⟨fun _ => rfl, fun h => h, fun _ h => h, fun _ h => by cases h⟩
  case checkCount =>
    split at hs <;> cases hs
    · exact .decide (State.setPc_self ..) rfl
    · exact .same (hset _ (hgo rfl rfl rfl rfl rfl rfl)) (by rintro ⟨⟩) fun c => rfl
  case remove.cas =>
    split at hs <;> cases hs
    · exact .remove (State.setPc_self ..) (by simp [State.setPc, State.setWtr, State.setCv])
    · exact .same (hset _ (hgo rfl rfl rfl rfl rfl rfl)) (by rintro ⟨⟩) fun c => rfl
  case storeWord =>
    cases hs
    exact .same (.moves _ rfl rfl rfl rfl) (by rintro ⟨⟩) fun c => hword _ c
  case waitLoad =>
    repeat' split at hs
    all_goals
      cases hs
      refine .same ?_ (by rintro ⟨⟩) fun c => rfl
      exact .moves _ rfl rfl rfl rfl
  all_goals repeat' split at hs
  all_goals
    cases hs
    refine .same (hset _ (hgo rfl rfl rfl rfl rfl rfl)) (by rintro ⟨⟩) fun c => ?_
    first
    | rfl
    | exact hword _ c

/-! ## Where the waiter is in a wait -/

variable [Fintype T] {C : WaitCondition → Prop} {loc loc' : T → Loc T} {u x : T}

omit [DecidableEq T] in
/-- A waiter is queued only on the condition variable of its wait, and not after
it has removed itself. -/
theorem Good.cvQ_of_locals (h : Good E C s loc) {l : CvWait} {d : Addr}
    (hl : (s.pc u).cvLocals = some l) (hd : loc u = .cvQ d) :
    d = l.pcv ∧ (l.outcome = .ok ∨ (s.pc u).cvMine = true) := by
  have hcompat : Compat (loc u) (s.wtr u).core (s.pc u).phase := h.inv.place.compat u
  have hok := (h.pcs u).ok
  rw [hd] at hcompat
  generalize s.pc u = p at hl hcompat hok
  cases p with
  | lock m b k p => simp [Pc.phase, Compat] at hcompat
  | lockSlow l k p =>
      cases p <;> simp only [Pc.phase] at hcompat
      case top | acquire | enqueue => split at hcompat <;> simp [Compat] at hcompat
      all_goals simp [Compat, Loc.Queued] at hcompat
  | unlock kind k p | unlockSlow m k p =>
      cases k <;> simp only [Pc.cvLocals, reduceCtorEq, Option.some.injEq] at hl
      subst hl
      simp only [Pc.phase, UnlockCont.phase, Compat, Loc.cvQ.injEq] at hcompat
      refine ⟨?_, Or.inl hok.1.2.2.1⟩
      rcases hcompat with hc | hc | hc | hc | hc | hc
      · exact hc.1
      all_goals simp [Loc.Queued] at hc
  | cvWait l' p =>
      have hcw : ∀ (c : Addr) (rc : Word), Compat (.cvQ d : Loc T) (s.wtr u).core (.cvWait c rc) →
          d = c := by
        intro c rc hc
        rcases hc with hc | hc | hc | hc | hc | hc
        · exact Loc.cvQ.inj hc.1
        all_goals simp [Loc.Queued] at hc
      cases p <;> simp only [Pc.cvLocals, reduceCtorEq, Option.some.injEq] at hl <;> subst hl <;>
        simp only [Pc.phase] at hcompat
      case loadRemoveCount => exact ⟨Loc.cvQ.inj hcompat.1, Or.inl hok.2.1⟩
      case storeWord | sem => exact ⟨hcw _ _ hcompat, Or.inl hok.2.1⟩
      case recheck => exact ⟨hcw _ _ hcompat, Or.inl hok.2.1⟩
      case spin lc => cases lc <;> exact ⟨hcw _ _ hcompat, Or.inl hok.2.1⟩
      case checkWaiting | checkCount => exact ⟨hcw _ _ hcompat, Or.inl hok.2.1⟩
      case remove => exact ⟨Loc.cvQ.inj hcompat.1, Or.inr rfl⟩
      case clearWaiting => simp [Compat] at hcompat
      all_goals
        split at hcompat
        · next ho => exact ⟨hcw _ _ hcompat, Or.inl ho⟩
        · simp [Compat] at hcompat
  | _ => cases hl

omit [DecidableEq T] in
theorem Good.loc_of_preparing (h : Good E C s loc) (hp : (s.pc u).cvPreparing = true) :
    loc u = .none := by
  have hcompat : Compat (loc u) (s.wtr u).core (s.pc u).phase := h.inv.place.compat u
  generalize s.pc u = p at hp hcompat
  cases p with
  | cvWait l p => cases p <;> first | exact hcompat.1 | cases hp
  | _ => cases hp

omit [DecidableEq T] in
theorem Good.loc_of_mine (h : Good E C s loc) (hp : (s.pc u).cvMine = true) :
    ∃ l, (s.pc u).cvLocals = some l ∧ loc u = .cvQ l.pcv ∧ l.outcome ≠ .ok := by
  have hcompat : Compat (loc u) (s.wtr u).core (s.pc u).phase := h.inv.place.compat u
  have hok := (h.pcs u).ok
  generalize s.pc u = p at hp hcompat hok
  cases p with
  | cvWait l p => cases p <;> first | exact ⟨l, rfl, hcompat.1, hok.2.1⟩ | cases hp
  | _ => cases hp

omit [DecidableEq T] [Fintype T] in
theorem Lists.leavesCv_iff (hl : Lists s loc) (hl' : Lists s' loc') :
    LeavesCv s s' x ↔ ∃ c, loc x = .cvQ c ∧ ¬ loc' x = .cvQ c := by
  simp only [LeavesCv, (hl.cvQ _).mem, (hl'.cvQ _).mem]

/-! ## Steps of the history -/

variable {h : CvHistory T} {a : Act σ}

omit [DecidableEq T] [Fintype T] in
theorem CvHistory.signalled_other (hut : u ≠ t) :
    (h.next t a s s').signalled u = true ↔ h.signalled u = true ∨ LeavesCv s s' u := by
  simp [CvHistory.next, hut]

omit [DecidableEq T] [Fintype T] in
theorem CvHistory.selfRemoved_other (hut : u ≠ t) :
    (h.next t a s s').selfRemoved u = h.selfRemoved u := by
  simp [CvHistory.next, hut]

omit [DecidableEq T] [Fintype T] in
theorem CvHistory.signalled_self (hstart : (s.pc t).startsCvWait = false) :
    (h.next t a s s').signalled t = h.signalled t := by
  simp [CvHistory.next, hstart]

omit [DecidableEq T] [Fintype T] in
theorem CvHistory.selfRemoved_self (hstart : (s.pc t).startsCvWait = false) :
    (h.next t a s s').selfRemoved t = true ↔ h.selfRemoved t = true ∨ LeavesCv s s' t := by
  simp [CvHistory.next, hstart]

omit [DecidableEq T] [Fintype T] in
theorem CvHistory.starts (hstart : (s.pc t).startsCvWait = true) :
    (h.next t a s s').signalled t = false ∧ (h.next t a s s').selfRemoved t = false := by
  simp [CvHistory.next, hstart]

/-- The outcome of the wait of `u` fits the history. -/
def WaitFits (s : State T σ) (h : CvHistory T) (u : T) : Prop :=
  WaitOk (h.signalled u) (h.selfRemoved u) s.cv u (s.pc u)

/-- Another thread removes a waiter only as a signaller. -/
theorem WaitFits.step_other (hw : WaitFits s h u) (hut : u ≠ t) (hg : Good E C s loc)
    (hg' : Good E C s' loc') (hs : AStep E C t (s.abs loc) (s'.abs loc'))
    (hstep : step E t a s = some s') : WaitFits s' (h.next t a s s') u := by
  have hpc : s'.pc u = s.pc u := step_pc_of_ne hut hstep
  have hleaves := hg.lists.leavesCv_iff hg'.lists (x := u)
  have hstay : ¬ LeavesCv s s' u → (h.next t a s s').signalled u = h.signalled u := by
    intro hn
    rw [Bool.eq_iff_iff, CvHistory.signalled_other hut]
    simp [hn]
  rw [WaitFits, hpc, CvHistory.selfRemoved_other hut]
  refine ⟨fun hp => ?_, fun hm => ?_, fun l hl hout => ?_, fun l hl hout hm => ?_⟩
  · have hnone := hg.loc_of_preparing hp
    rw [hstay fun hlv => ?_]
    · exact hw.preparing hp
    · obtain ⟨c, hc, -⟩ := hleaves.mp hlv
      simp [hnone] at hc
  · obtain ⟨l, hl, hloc, -⟩ := hg.loc_of_mine hm
    obtain ⟨l', hl', hloc', -⟩ := hg'.loc_of_mine (hpc ▸ hm)
    rw [hpc, hl, Option.some.injEq] at hl'
    subst hl'
    rw [hstay fun hlv => ?_]
    · exact hw.mine hm
    · obtain ⟨c, hc, hc'⟩ := hleaves.mp hlv
      rw [hloc, Loc.cvQ.injEq] at hc
      exact hc' (hc ▸ hloc')
  · obtain ⟨hself, hsig⟩ := hw.ok l hl hout
    refine ⟨hself, ?_⟩
    rw [CvHistory.signalled_other hut, hsig, hleaves, (hg.lists.cvQ _).mem, (hg'.lists.cvQ _).mem]
    constructor
    · rintro (hnot | ⟨c, hc, hc'⟩)
      · -- nobody else queues the waiter of `u`
        intro hin
        cases hs.move hg.inv.place u with
        | stay h' => exact hnot (h'.symm.trans hin)
        | cvJoin _ hx => exact hut hx
        | _ => simp_all [State.abs]
      · rwa [← (hg.cvQ_of_locals hl hc).1]
    · intro hnot
      by_cases hin : loc u = .cvQ l.pcv
      · exact Or.inr ⟨l.pcv, hin, hnot⟩
      · exact Or.inl hin
  · rw [hstay fun hlv => ?_]
    · exact hw.late l hl hout hm
    · obtain ⟨c, hc, -⟩ := hleaves.mp hlv
      rcases (hg.cvQ_of_locals hl hc).2 with ho | ho
      · exact hout ho
      · simp [hm] at ho

omit [Fintype T] in
theorem cvSignal_phase (l : Signal T) (p : SignalPc T) :
    ((cvSignal s t l p).pc t).phase = .idle := by
  rcases p with _ | ⟨_ | _⟩ | ⟨_, _, _ | _⟩ | _ | ⟨_, _, _ | _⟩ | _ <;>
    simp only [cvSignal, signalDone] <;> repeat' split
  all_goals simp [State.setPc, Pc.phase]

omit [DecidableEq T] [Fintype T] in
/-- A step that does not change whether the thread's own waiter is queued. -/
theorem WaitFits.keep (hw : WaitFits s h t) (hstart : (s.pc t).startsCvWait = false)
    (hp : SameWait (s.pc t) (s'.pc t))
    (hcv : ∀ c, t ∈ (s'.cv c).waiters ↔ t ∈ (s.cv c).waiters) :
    WaitFits s' (h.next t a s s') t := by
  have hstay : ¬ LeavesCv s s' t := by
    rintro ⟨c, hc, hc'⟩
    exact hc' ((hcv c).mpr hc)
  have hself : (h.next t a s s').selfRemoved t = h.selfRemoved t := by
    rw [Bool.eq_iff_iff, CvHistory.selfRemoved_self hstart]
    simp [hstay]
  rw [WaitFits, CvHistory.signalled_self hstart, hself]
  exact WaitOk.same hw hp hcv

theorem WaitFits.step_self (hw : WaitFits s h t) (hg : Good E C s loc) (hg' : Good E C s' loc')
    (hop : (s.pc t).op ≠ .debug) (hstep : step E t a s = some s') :
    WaitFits s' (h.next t a s s') t := by
  by_cases hcvw : ∃ l p, s.pc t = .cvWait l p
  · obtain ⟨l, p, hpc⟩ := hcvw
    obtain ⟨ch, hs⟩ : ∃ ch, a = .step ch ∨ a = .post := by
      cases a with
      | post => exact ⟨.run, Or.inr rfl⟩
      | call c => simp [step, hpc] at hstep
      | step ch => exact ⟨ch, Or.inl rfl⟩
    rcases hs with rfl | rfl
    · have hok := (hg.pcs t).ok
      simp only [step, hpc] at hstep
      rw [hpc] at hok
      cases cvWaitWithDeadline_step hstep with
      | same hp hstart hcv =>
          refine hw.keep ?_ (hpc ▸ hp) fun c => by rw [hcv c]
          rw [hpc]
          cases p <;> first | rfl | exact (hstart rfl).elim
      | start hpc' =>
          have hboth : (h.next t (.step ch) s s').signalled t = false ∧
              (h.next t (.step ch) s s').selfRemoved t = false :=
            CvHistory.starts (by rw [hpc]; rfl)
          rw [WaitFits, hboth.1, hboth.2, hpc']
          exact ⟨fun _ => ⟨rfl, rfl⟩, (by rintro ⟨⟩), (by rintro _ ⟨⟩), (by rintro _ ⟨⟩)⟩
      | join hpc' hcv =>
          have hnone := hg.loc_of_preparing (u := t) (by rw [hpc]; rfl)
          obtain ⟨hsig, hself⟩ := hw.preparing (by rw [hpc]; rfl)
          have hstay : ¬ LeavesCv s s' t := by
            rw [hg.lists.leavesCv_iff hg'.lists]
            simp [hnone]
          have hself' : (h.next t (.step ch) s s').selfRemoved t = false := by
            rw [Bool.eq_false_iff, ne_eq, CvHistory.selfRemoved_self (by rw [hpc]; rfl)]
            simp [hself, hstay]
          rw [WaitFits, CvHistory.signalled_self (by rw [hpc]; rfl), hself', hsig, hpc']
          refine ⟨(by rintro ⟨⟩), (by rintro ⟨⟩), fun l' hl' _ => ⟨rfl, ?_⟩, fun l' hl' hout => ?_⟩
          · cases hl'
            simp [hcv]
          · cases hl'
            exact (hout hok.2.1).elim
      | @decide old hpc' hcv =>
          obtain ⟨hself, hsig⟩ := hw.ok l (by rw [hpc]; rfl) hok.2.1
          have hstay : ¬ LeavesCv s s' t := by
            rintro ⟨c, hc, hc'⟩
            rw [hcv] at hc'
            exact hc' hc
          have hself' : (h.next t (.step ch) s s').selfRemoved t = false := by
            rw [Bool.eq_false_iff, ne_eq, CvHistory.selfRemoved_self (by rw [hpc]; rfl)]
            simp [hself, hstay]
          have hin : t ∈ (s.cv l.pcv).waiters := by
            obtain ⟨l', hl', hloc, -⟩ := hg'.loc_of_mine (u := t) (by rw [hpc']; rfl)
            rw [hpc'] at hl'
            cases hl'
            rw [← hcv]
            exact ((hg'.lists.cvQ _).mem t).mpr hloc
          have hsig' : h.signalled t = false := by
            rw [Bool.eq_false_iff, ne_eq, hsig]
            exact fun hn => hn hin
          rw [WaitFits, CvHistory.signalled_self (by rw [hpc]; rfl), hself', hsig', hpc']
          refine ⟨(by rintro ⟨⟩), fun _ => ⟨rfl, rfl⟩, fun l' hl' hout => ?_, (by rintro _ ⟨⟩ _ ⟨⟩)⟩
          cases hl'
          exact (hok.2.2.1 hout).elim
      | remove hpc' hcv =>
          obtain ⟨hsig, hself⟩ := hw.mine (by rw [hpc]; rfl)
          have hleaves : LeavesCv s s' t := by
            obtain ⟨l', hl', hloc, -⟩ := hg.loc_of_mine (u := t) (by rw [hpc]; rfl)
            rw [hpc] at hl'
            cases hl'
            refine ⟨l.pcv, ((hg.lists.cvQ _).mem t).mpr hloc, ?_⟩
            rw [hcv]
            exact (hg.lists.cvQ _).nodup.not_mem_erase
          have hself' : (h.next t (.step ch) s s').selfRemoved t = true := by
            rw [CvHistory.selfRemoved_self (by rw [hpc]; rfl)]
            exact Or.inr hleaves
          rw [WaitFits, CvHistory.signalled_self (by rw [hpc]; rfl), hself', hsig, hpc']
          refine ⟨(by rintro ⟨⟩), (by rintro ⟨⟩), fun l' hl' hout => ?_, fun _ _ _ _ => ⟨rfl, rfl⟩⟩
          cases hl'
          exact (hok.2.1 hout).elim
    · cases hstep
      cases hstart : (s.pc t).startsCvWait with
      | false =>
          exact hw.keep hstart ⟨id, id, fun _ hm => hm, fun l hl => ⟨l, hl, rfl, rfl⟩⟩ fun c => .rfl
      | true =>
          have hp : p = .storeWaiting := by
            rw [hpc] at hstart
            cases p <;> first | rfl | cases hstart
          subst hp
          -- the wait has not begun, so nothing is said about it
          change WaitOk _ _ _ t (s.pc t)
          rw [hpc]
          exact ⟨(by rintro ⟨⟩), (by rintro ⟨⟩), (by rintro _ ⟨⟩), (by rintro _ ⟨⟩)⟩
  · push Not at hcvw
    refine hw.keep ?_ (step_sameWait hstep hcvw) fun c => ?_
    · generalize s.pc t = p at hcvw
      cases p with
      | cvWait l p => exact (hcvw l p rfl).elim
      | _ => rfl
    · rcases step_cv hstep with ⟨hcv, -⟩ | ⟨l, p, ch, hpc, -⟩ | ⟨l, p, hpc, rfl⟩ | hdbg | rfl
      · rw [hcv]
      · exact (hcvw l p hpc).elim
      · have hcompat : Compat (loc t) (s.wtr t).core (s.pc t).phase := hg.inv.place.compat t
        have hcompat' := hg'.inv.place.compat t
        have hnone : loc t = .none := by
          rw [hpc] at hcompat
          exact hcompat
        have hnone' : loc' t = .none := by
          change Compat (loc' t) _ ((cvSignal s t l p).pc t).phase at hcompat'
          rw [cvSignal_phase] at hcompat'
          exact hcompat'
        rw [(hg.lists.cvQ c).mem, (hg'.lists.cvQ c).mem, hnone, hnone']
      · exact (hop hdbg).elim
      · cases hstep
        rfl

end

end Nsync.Mu
