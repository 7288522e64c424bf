import Nsync.Mu.RefineCv

/-!
# Signalling refines the protocol

`nsync_cv_signal`, `nsync_cv_broadcast` and `wake_waiters`.
-/

namespace Nsync.Mu

open Nsync.Lib

variable {T σ : Type} [DecidableEq T]

/-! ## Lists -/

theorem dllNext_mem {l : List T} {x y : T} (hnd : l.Nodup) (hx : x ∈ l)
    (hy : dllNext l x = some y) : y ∈ l.erase x := by
  obtain ⟨l₁, l₂, rfl⟩ := List.append_of_mem hx
  have hx₁ : x ∉ l₁ := fun hm => (List.nodup_append.mp hnd).2.2 x hm x (by simp) rfl
  rw [dllNext_append hx₁] at hy
  rw [List.erase_append_right _ hx₁, List.erase_cons_head]
  exact List.mem_append_right _ (List.mem_of_mem_head? hy)

omit [DecidableEq T] in
theorem Segmented.of_alone {h : Links T} {R : T → T → Prop} {l : List T}
    (hl : ∀ x ∈ l, h.next x = x ∧ h.prev x = x) : Segmented h R l := by
  induction l with
  | nil => exact .nil
  | cons a l ih =>
      exact (Segmented.singleton (hl a (by simp))).append (ih fun x hx => hl x (by simp [hx]))

section

variable {isWriter : T → Bool} {f g : Bool}

omit [DecidableEq T] in
theorem transferRest_perm (l : List T) (r : Transfer T) :
    ((transferRest f g isWriter l r).moved ++ (transferRest f g isWriter l r).left).Perm
      (r.moved ++ r.left ++ l) := by
  induction l generalizing r with
  | nil => simp [transferRest]
  | cons p rest ih =>
      rw [transferRest]
      refine (ih _).trans ?_
      split
      · have hswap : ([p] ++ r.left).Perm (r.left ++ [p]) := List.perm_append_comm
        simpa [List.append_assoc] using (hswap.append_right rest).append_left r.moved
      · simp [List.append_assoc]

omit [DecidableEq T] in
theorem transferRest_writer (l : List T) (r : Transfer T)
    (hr : r.transferredAWriter = true → ∃ x ∈ r.moved, isWriter x = true) :
    (transferRest f g isWriter l r).transferredAWriter = true →
      ∃ x ∈ (transferRest f g isWriter l r).moved, isWriter x = true := by
  induction l generalizing r with
  | nil => exact hr
  | cons p rest ih =>
      rw [transferRest]
      refine ih _ ?_
      split
      · intro hw
        rcases Bool.or_eq_true_iff.mp hw with hw | hw
        · obtain ⟨x, hx, hxw⟩ := hr hw
          exact ⟨x, by simp [hx], hxw⟩
        · exact ⟨p, by simp, hw⟩
      · exact hr

omit [DecidableEq T] in
/-- Every waiter is either moved or left to be woken. -/
theorem transfer_perm (l : List T) :
    ((transfer f isWriter l).moved ++ (transfer f isWriter l).left).Perm l := by
  cases l with
  | nil => simp [transfer]
  | cons first rest =>
      rw [transfer]
      refine (transferRest_perm _ _).trans ?_
      split <;> simp

omit [DecidableEq T] in
theorem transfer_writer (l : List T) (hw : (transfer f isWriter l).transferredAWriter = true) :
    ∃ x ∈ (transfer f isWriter l).moved, isWriter x = true := by
  cases l with
  | nil => simp [transfer] at hw
  | cons first rest =>
      rw [transfer] at hw ⊢
      refine transferRest_writer _ _ ?_ hw
      split <;> simp

end

variable [Fintype T] {E : Env σ} {C : WaitCondition → Prop} {s : State T σ} {loc : T → Loc T}
  {t : T} {c : Addr}

/-! ## Waking -/

/-- Where `wake_waiters` goes on when it moves no more waiters. -/
def Wake.startPc (l : Wake T) : Pc T :=
  if l.toWake = [] then .client l.held else .wakeWaiters l .store

omit [Fintype T] in
theorem wakeStart_eq (s : State T σ) (t : T) (l : Wake T) :
    wakeStart s t l = s.setPc t l.startPc := by
  rw [wakeStart, Wake.startPc]
  split <;> rfl

omit [DecidableEq T] [Fintype T] in
theorem Wake.startPc_spec (l : Wake T) (w : Waiter) :
    l.startPc.abs = ⟨l.held, .no, .idle, false, false, false, .no⟩ ∧
      l.startPc.lists = ([], [], [], l.toWake) ∧ l.startPc.Ok C w ∧ l.startPc.target = none ∧
      l.startPc.scan? = none := by
  rw [Wake.startPc]
  split
  · next hnil => exact ⟨rfl, by rw [hnil]; rfl, trivial, rfl, rfl⟩
  · exact ⟨rfl, rfl, trivial, rfl, rfl⟩

theorem Good.wakeStart (h : Good E C s loc) {l : Wake T} {p : WakePc T}
    (hpc : s.pc t = .wakeWaiters l p)
    (habs : (s.pc t).abs = ⟨l.held, .no, .idle, false, false, false, .no⟩) :
    Simulates E C t s loc (Nsync.Mu.wakeStart s t l) := by
  obtain ⟨habs', hlists, hok, htarget, hscan⟩ := l.startPc_spec (C := C) (s.wtr t)
  rw [wakeStart_eq]
  refine h.goto hpc ?_ ?_ hok htarget hscan
  · rw [hlists]
    rfl
  · rw [habs', ← hpc, habs]

omit [DecidableEq T] [Fintype T] in
/-- A thread that waits on a condition variable has no condition. -/
theorem Pc.Ok.cond_of_cvWait {p : Pc T} {w : Waiter} {rc : Word} (h : p.Ok C w)
    (hp : p.phase = .cvWait c rc) : w.cond = none := by
  have hk : ∀ (m : Mode) (k : UnlockCont), k.Ok C m w → k.phase = .cvWait c rc → w.cond = none := by
    intro m k hk hp
    cases k with
    | ret => cases hp
    | muWait l => cases hp
    | cvWait l => exact hk.2.2.2.2
  cases p with
  | unlock kind k p => exact hk _ k h.1 hp
  | unlockSlow m k p => exact hk _ k h.1 hp
  | lockSlow l k p => exact h.2.2.1
  | cvWait l p =>
      obtain ⟨-, h⟩ := h
      rcases p with _ | _ | ⟨_ | _⟩ | _ | _ | _ | _ | _ | ⟨_ | _⟩ | _ | _ | _ | _ | _ | _ <;>
        simp_all [Pc.phase, Pc.cvWaitOk, Pc.CvArmed]
  | muWait l p =>
      cases p <;> simp only [Pc.phase, reduceCtorEq] at hp
      all_goals
        split at hp <;> cases hp
  | _ => cases hp

omit [DecidableEq T] in
/-- A waiter on a `to_wake_list` has no condition. -/
theorem Good.cond_of_toWake (h : Good E C s loc) {x u : T} (hx : loc x = .toWake u) :
    (s.wtr x).cond = none := by
  have hcompat : Compat (loc x) (s.wtr x).core (s.pc x).phase := h.inv.place.compat x
  rw [hx] at hcompat
  cases hp : (s.pc x).phase with
  | cvWait c rc => exact (h.pcs x).ok.cond_of_cvWait hp
  | _ =>
      rw [hp] at hcompat
      simp [Compat, Loc.Queued] at hcompat

/-- The CAS that takes the spinlock of the mutex and moves waiters to its queue. -/
theorem Good.transfer (h : Good E C s loc) {l : Wake T} {old : Word}
    (hpc : s.pc t = .wakeWaiters l (.cas old)) (hword : s.word = old) (f : Bool) {r : Transfer T}
    (hr : r = Nsync.Mu.transfer f (fun x => (s.wtr x).lType == .writer) l.toWake) :
    Simulates E C t s loc
      { (s.setWord (transferWord old)).setPc t (.wakeWaiters { l with toWake := r.left }
          (.release (r.transferredAWriter && !r.wokeAReader) .load)) with
        waiters := s.waiters ++ r.moved
        wtr := fun x => if x ∈ r.moved then { s.wtr x with cvMu := false } else s.wtr x } := by
  subst hword
  obtain ⟨hheld, hspin⟩ : Pc.Ok C (s.wtr t) (.wakeWaiters l (.cas s.word)) := hpc ▸ (h.pcs t).ok
  have htw : Listed loc l.toWake (.toWake t) := by
    have := h.lists.toWake t
    rwa [hpc] at this
  have hperm : (r.moved ++ r.left).Perm l.toWake := hr ▸ transfer_perm _
  have hnd := hperm.nodup_iff.mpr htw.nodup
  obtain ⟨hndm, hndl, hdisj⟩ := List.nodup_append.mp hnd
  have hmem : ∀ x, loc x = .toWake t ↔ x ∈ r.moved ∨ x ∈ r.left := by
    intro x
    rw [← htw.mem, ← hperm.mem_iff, List.mem_append]
  have hloc : ∀ x ∈ r.moved, loc x = .toWake t := fun x hx => (hmem x).mpr (Or.inl hx)
  have hwriter : (r.transferredAWriter && !r.wokeAReader) = true →
      ∃ x ∈ r.moved, (s.wtr x).lType = .writer := by
    intro hb
    rw [hr] at hb ⊢
    obtain ⟨x, hx, hxw⟩ := transfer_writer _ (Bool.and_eq_true_iff.mp hb).1
    exact ⟨x, hx, by simpa using hxw⟩
  generalize hb : (r.transferredAWriter && !r.wokeAReader) = b at hwriter
  have hstep := AStep.transfer (E := E) (C := C) (t := t) (a := s.abs loc) r.moved b
    (by simp [State.abs, Pc.abs, hpc, Pc.spinRole]) (by simp [State.abs, Pc.abs, hpc, Pc.region])
    hspin hheld (fun x hx => ⟨hloc x hx, h.cond_of_toWake (hloc x hx)⟩) hwriter
  have hne : ∀ u, u ≠ t → ((Function.update s.pc t
      (.wakeWaiters { l with toWake := r.left } (.release b .load))) u).lists = (s.pc u).lists := by
    intro u hu
    simp [hu]
  have hcond : ∀ x, (if x ∈ r.moved then { s.wtr x with cvMu := false } else s.wtr x).cond =
      (s.wtr x).cond := by
    intro x
    split <;> rfl
  have hother : ∀ x k, k ≠ .muQ → k ≠ .toWake t →
      ((if x ∈ r.moved then Loc.muQ else loc x) = k ↔ loc x = k) := by
    intro x k h1 h2
    split
    · next hx => simp [hloc x hx, Ne.symm h1, Ne.symm h2]
    · rfl
  refine h.next (fun x => if x ∈ r.moved then .muQ else loc x)
    (hstep.of_eq (AState.ext (view_transferWord s.word) (State.abs_th (s := s) rfl ?_) rfl ?_ rfl
      rfl rfl rfl))
    (fun u hu => by simp [State.setPc, State.setWord, hu]) ?_
    (PcOk.of_ok (State.setPc_self _ t _) trivial rfl rfl) ?_
  · simp only [State.abs, hpc]
    rfl
  · funext x
    simp only [State.abs, AState.setTh, AState.move, AState.setV]
    split <;> rfl
  · refine h.lists.of_step (t := t) hne (fun _ => rfl) ⟨fun x => ?_, ?_⟩ ?_ ?_ ?_
      fun x k h1 _ _ h4 _ => hother x k h1 h4
    · rw [List.mem_append, h.lists.muQ.mem]
      split <;> simp_all
    · refine List.nodup_append.mpr ⟨h.lists.muQ.nodup, hndm, ?_⟩
      rintro x hx y hy rfl
      simpa [hloc x hy] using (h.lists.muQ.mem x).mp hx
    · have hp := h.lists.priv t
      rw [hpc] at hp
      rw [State.setPc_self]
      exact hp.congr fun x => hother x _ (by simp) (by simp)
    · have hp := h.lists.wake t
      rw [hpc] at hp
      rw [State.setPc_self]
      exact hp.congr fun x => hother x _ (by simp) (by simp)
    · rw [State.setPc_self]
      refine ⟨fun x => ?_, hndl⟩
      change x ∈ r.left ↔ _
      split
      · next hx =>
          simp only [reduceCtorEq, iff_false]
          exact fun hl => hdisj x hx x hl rfl
      · next hx => simp [hmem, hx]
  · refine h.rings.of_step (t := t) (k := []) hne (fun _ _ => ⟨rfl, rfl⟩) (by simp)
      (fun x _ _ _ => hcond x) ?_ ?_ ?_ ?_
    · refine Segmented.append (Segmented.keep h.rings.muQ (k := []) (fun _ _ => ⟨rfl, rfl⟩) (by simp)
        fun x _ => hcond x) (Segmented.of_alone fun x hx => ?_)
      exact h.alone (by simp [hloc x hx]) (by simp [hloc x hx])
    · rw [State.setPc_self]
      exact .nil
    · rw [State.setPc_self]
      exact .nil
    · intro x hx _ _ hx'
      rw [hpc] at hx'
      refine (hx ?_).elim
      rcases hx' with hx' | hx' | hx'
      · exact List.mem_append_left _ hx'
      · cases hx'
      · cases hx'

theorem Good.cvWake (h : Good E C s loc) {l : Wake T} {x : T} {rest : List T}
    (hpc : s.pc t = .wakeWaiters l .store) (hl : l.toWake = x :: rest) :
    Simulates E C t s loc ((s.setWtr x (Waiter.setWaiting false)).setPc t
      (.wakeWaiters { l with toWake := rest } (.sem x))) := by
  have htw : Listed loc (x :: rest) (.toWake t) := by
    have := h.lists.toWake t
    rw [hpc] at this
    exact hl ▸ this
  have hloc : loc x = .toWake t := (htw.mem x).mp (by simp)
  have hwtr : ∀ y, ((s.setWtr x (Waiter.setWaiting false)).wtr y).cond = (s.wtr y).cond := by
    intro y
    by_cases hy : y = x
    · subst hy
      simp [State.setWtr, Waiter.setWaiting]
    · simp [State.setWtr, hy]
  have hlists : ∀ u, u ≠ t → ((Function.update s.pc t
      (.wakeWaiters { l with toWake := rest } (.sem x))) u).lists = (s.pc u).lists := by
    intro u hu
    simp [hu]
  have hscan : ∀ u, ((Function.update s.pc t
      (.wakeWaiters { l with toWake := rest } (.sem x))) u).scan? = (s.pc u).scan? := by
    intro u
    by_cases hu : u = t
    · subst hu
      rw [Function.update_self, hpc]
      rfl
    · rw [Function.update_of_ne hu]
  have hstep := AStep.cvWake (E := E) (C := C) (t := t) (a := s.abs loc) x hloc
  refine h.next (Function.update loc x .none)
    (hstep.of_eq (AState.ext rfl ?_ rfl ?_ rfl rfl rfl rfl))
    (fun u hu => by simp [State.setPc, State.setWtr, hu]) ?_
    (PcOk.of_ok (State.setPc_self _ t _) trivial rfl rfl)
    (h.rings.congr (fun u => congrArg (Option.elim · [] Scan.waiters) (hscan u))
      (fun u => congrArg (Option.elim · [] Scan.newWaiters) (hscan u)) rfl rfl fun y _ => hwtr y)
  · refine (State.abs_th (s := s) (p := .wakeWaiters { l with toWake := rest } (.sem x)) rfl ?_).trans
      (Function.update_eq_self t _)
    rw [hpc]
    rfl
  · funext y
    by_cases hy : y = x
    · subst hy
      simp [State.abs, State.setPc, State.setWtr, Waiter.core, Waiter.setWaiting]
    · simp [State.abs, State.setPc, State.setWtr, hy]
  · refine h.lists.of_step (t := t) hlists (fun _ => rfl) ?_ ?_ ?_ ?_ ?_
    · exact h.lists.muQ.other (by simp [hloc]) (by simp)
    · have hp := h.lists.priv t
      rw [hpc] at hp
      rw [State.setPc_self]
      exact hp.other (by simp [hloc]) (by simp)
    · have hp := h.lists.wake t
      rw [hpc] at hp
      rw [State.setPc_self]
      exact hp.other (by simp [hloc]) (by simp)
    · rw [State.setPc_self]
      exact htw.tail (by simp)
    · intro y k _ _ _ h4 h5
      by_cases hy : y = x
      · subst hy
        have : Loc.none ≠ k := by
          rintro rfl
          exact h5 (Or.inl rfl)
        simp [hloc, Ne.symm h4, this]
      · simp [hy]

theorem wakeWaiters_simulates (h : Good E C s loc) {l : Wake T} {p : WakePc T}
    (hpc : s.pc t = .wakeWaiters l p) : Simulates E C t s loc (wakeWaiters E s t l p) := by
  have hok := (h.pcs t).ok
  rw [hpc] at hok
  have hclient : ∀ w : WakePc T, s.pc t = .wakeWaiters l w → l.toWake = [] →
      (Pc.wakeWaiters l w).spinRole = .no → Simulates E C t s loc (s.setPc t (.client l.held)) := by
    intro w hpc hnil hspin
    refine h.goto hpc ?_ ?_ trivial rfl rfl
    · simp only [Pc.lists, Pc.toWake, hnil]
      rfl
    · simp only [Pc.abs, hspin]
      rfl
  cases p with
  | load =>
      rw [wakeWaiters]
      split
      · next hnil => exact hclient _ hpc hnil rfl
      · next first rest hl =>
          simp only
          split
          · next hcond =>
              refine h.goto hpc rfl rfl ⟨?_, (and_muSpinlock _).mp hcond.2.1⟩ rfl rfl
              have := hcond.1
              rw [ne_eq, and_muAnyLock] at this
              by_cases hw : (view s.word).wlock = true
              · exact Or.inl hw
              · exact Or.inr fun hr => this ⟨by simpa using hw, hr⟩
          · exact h.wakeStart hpc (by rw [hpc]; rfl)
  | cas old =>
      rw [wakeWaiters]
      split
      · next hnil => exact hclient _ hpc hnil rfl
      · split
        · next hword => exact h.transfer hpc hword _ rfl
        · exact h.wakeStart hpc (by rw [hpc]; rfl)
  | release b lc =>
      cases lc with
      | load => exact h.goto hpc rfl rfl trivial rfl rfl
      | cas old =>
          rw [wakeWaiters]
          split
          · next hword =>
              subst hword
              obtain ⟨habs, hlists, hok', htarget, hscan⟩ := l.startPc_spec (C := C) (s.wtr t)
              have hstep := AStep.transferRelease (E := E) (C := C) (t := t) (a := s.abs loc) b
                (by simp [State.abs, Pc.abs, hpc, Pc.spinRole])
                (by simp [State.abs, Pc.abs, hpc, Pc.region])
              rw [wakeStart_eq]
              refine h.simple loc rfl (by rw [hlists, hpc]; rfl) rfl (fun _ => rfl) rfl
                (fun _ => Or.inl rfl)
                (hstep.of_eq (AState.ext (view_transferReleaseWord b s.word) (State.abs_th rfl ?_)
                  rfl rfl rfl rfl rfl rfl))
                (PcOk.of_ok (State.setPc_self _ t _) hok' htarget hscan)
              rw [habs]
              simp only [State.abs, hpc]
              rfl
          · exact h.goto hpc rfl rfl trivial rfl rfl
  | store =>
      rw [wakeWaiters]
      split
      · next hnil => exact hclient _ hpc hnil rfl
      · next x rest hl => exact h.cvWake hpc hl
  | sem x =>
      rw [wakeWaiters, wakeStart_eq]
      obtain ⟨habs, hlists, hok', htarget, hscan⟩ :=
        l.startPc_spec (C := C) ((s.setWtr x (Waiter.post E)).wtr t)
      refine h.stutter rfl (by rw [hlists, hpc]; rfl) rfl rfl rfl rfl ?_ rfl rfl rfl
        (by rw [habs, hpc]; rfl) (PcOk.of_ok (State.setPc_self _ t _) hok' htarget hscan)
      intro y
      by_cases hy : y = x
      · subst hy
        simp [State.setPc, State.setWtr, Waiter.post, Waiter.core]
      · simp [State.setPc, State.setWtr, hy]

/-! ## Choosing -/

variable {l : Signal T}

omit [DecidableEq T] [Fintype T] in
theorem PcOk.of_signal {p : SignalPc T} (hp : s.pc t = .signal l p) (hok : Pc.signalOk l p)
    (ht : ∀ x, (Pc.signal l p).target = some x →
      ∃ c, (Pc.signal l p).cvRole.addr = some c ∧ x ∈ (s.cv c).waiters) : PcOk E C s t :=
  ⟨by rw [hp]; exact hok, by rw [hp]; exact ht, by simp [hp, Pc.scan?], by rw [hp]; trivial⟩

/-- A step of a signaller within one protocol state. -/
theorem Good.gotoTarget (h : Good E C s loc) {p : SignalPc T} {q : Pc T} (hpc : s.pc t = q)
    (hlists : (Pc.signal l p).lists = q.lists) (habs : (Pc.signal l p).abs = q.abs)
    (hok : Pc.signalOk l p)
    (ht : ∀ x, (Pc.signal l p).target = some x →
      ∃ c, (Pc.signal l p).cvRole.addr = some c ∧ x ∈ (s.cv c).waiters) :
    Simulates E C t s loc (s.setPc t (.signal l p)) :=
  h.stutter rfl (hpc ▸ hlists) rfl rfl rfl rfl (fun _ => rfl) rfl rfl rfl (hpc ▸ habs)
    (PcOk.of_signal (State.setPc_self s t _) hok ht)

/-- A signaller takes `x` off the queue. -/
theorem Good.select (h : Good E C s loc) {p : SignalPc T} (hpc : s.pc t = .signal l p)
    (hcv : (Pc.signal l p).cvRole = .held l.pcv) {x : T} (hx : x ∈ (s.cv l.pcv).waiters)
    {l' : Signal T} {p' : SignalPc T}
    (hl' : l'.pcv = l.pcv ∧ l'.held = l.held ∧ l'.toWake = l.toWake ++ [x])
    (hcv' : (Pc.signal l' p').cvRole = .held l'.pcv) (hok : Pc.signalOk l' p')
    (ht : ∀ y, (Pc.signal l' p').target = some y → y ∈ (s.cv l.pcv).waiters.erase x) :
    Simulates E C t s loc
      (((s.setCv l.pcv { s.cv l.pcv with waiters := (s.cv l.pcv).waiters.erase x }).setWtr x
        Waiter.removed).setPc t (.signal l' p')) := by
  obtain ⟨hlc, hlh, hlt⟩ := hl'
  have hloc : loc x = .cvQ l.pcv := ((h.lists.cvQ l.pcv).mem x).mp hx
  have hwtr : ∀ y, ((s.setWtr x Waiter.removed).wtr y).cond = (s.wtr y).cond := by
    intro y
    by_cases hy : y = x
    · subst hy
      simp [State.setWtr, Waiter.removed]
    · simp [State.setWtr, hy]
  have hne : ∀ u, u ≠ t → (Function.update s.pc t (.signal l' p')) u = s.pc u :=
    fun u hu => Function.update_of_ne hu _ _
  have hsame : ∀ {α : Type} (f : Pc T → α), f (.signal l' p') = f (.signal l p) →
      ∀ u, f ((Function.update s.pc t (.signal l' p')) u) = f (s.pc u) := by
    intro α f hf u
    by_cases hu : u = t
    · subst hu
      rw [Function.update_self, hpc, hf]
    · rw [hne u hu]
  have hstep := AStep.select (E := E) (C := C) (t := t) (a := s.abs loc) l.pcv x
    (by simp only [State.abs, hpc]; exact hcv) hloc
    (fun d => by simp [State.abs, Pc.abs, hpc, Pc.phase])
  refine h.next (Function.update loc x (.toWake t))
    (hstep.of_eq (AState.ext rfl ?_ rfl ?_ rfl ?_ rfl rfl))
    (fun u hu => by simp [State.setPc, State.setCv, State.setWtr, hu]) ?_ ?_
    (h.rings.congr (hsame Pc.scanOld rfl) (hsame Pc.scanNew rfl) rfl rfl fun y _ => hwtr y)
  · refine (State.abs_th (s := s) (p := .signal l' p') rfl ?_).trans (Function.update_eq_self t _)
    rw [hpc]
    simp only [Pc.abs, hcv, hcv', hlc, Pc.lockRole, hlh]
    rfl
  · funext y
    by_cases hy : y = x
    · subst hy
      simp [State.abs, State.setPc, State.setCv, State.setWtr, Waiter.core, Waiter.removed]
    · simp [State.abs, State.setPc, State.setCv, State.setWtr, hy]
  · exact (State.cvw_setCv s l.pcv _).trans (Function.update_eq_self l.pcv _)
  · refine h.lists.of_cvStep (t := t) l.pcv (hsame Pc.priv rfl) (hsame Pc.wake rfl) rfl
      (fun d hd => by simp [State.setPc, State.setCv, State.setWtr, hd]) ?_
      (fun u hu => congrArg Pc.toWake (hne u hu)) ?_ ?_
    · have hq : Listed (Function.update loc x (.toWake t)) ((s.cv l.pcv).waiters.erase x)
          (.cvQ l.pcv) := (h.lists.cvQ l.pcv).erase (by simp)
      simpa [State.setPc, State.setCv, State.setWtr] using hq
    · have htw := h.lists.toWake t
      rw [hpc] at htw
      rw [State.setPc_self]
      change Listed _ l'.toWake _
      rw [hlt]
      exact htw.snoc (by simp [hloc])
    · intro y k h1 h2 _
      by_cases hy : y = x
      · subst hy
        simp [hloc, Ne.symm h1, Ne.symm h2]
      · simp [hy]
  · refine PcOk.of_signal (State.setPc_self _ t _) hok fun y hy =>
      ⟨l.pcv, by rw [hcv', hlc]; rfl, ?_⟩
    simpa [State.setPc, State.setCv, State.setWtr] using ht y hy

omit [DecidableEq T] [Fintype T] in
theorem CvFree.done {old : Word} (h : CvFree old) (b : Bool) (q : List T) :
    CvFree (if b then 0#32 else if q = [] then old &&& ~~~cvNonEmpty else old) := by
  split
  · exact .zero
  · split
    · exact h.andNot _
    · exact h

theorem cvSignal_simulates (h : Good E C s loc) {p : SignalPc T} (hpc : s.pc t = .signal l p) :
    Simulates E C t s loc (cvSignal s t l p) := by
  have hok : Pc.signalOk l p := by
    have := (h.pcs t).ok
    rwa [hpc] at this
  have htarget := (h.pcs t).target
  rw [hpc] at htarget
  have hnd := (h.lists.cvQ l.pcv).nodup
  cases p with
  | loadWord =>
      rw [cvSignal]
      split
      · exact h.goto hpc rfl rfl hok rfl rfl
      · refine h.goto hpc ?_ rfl trivial rfl rfl
        simp only [Pc.lists, Pc.toWake, show l.toWake = [] from hok]
        rfl
  | spin lc =>
      cases lc with
      | load =>
          rw [cvSignal]
          split
          · next hz => exact h.goto hpc rfl rfl ⟨hok, (and_cvSpinlock _).mp hz⟩ rfl rfl
          · exact h.goto hpc rfl rfl hok rfl rfl
      | cas old =>
          obtain ⟨hnil, hfree⟩ := hok
          simp only [cvSignal]
          split
          · next hword =>
              subst hword
              split
              · refine h.cvTake hpc rfl rfl hfree rfl (Or.inl rfl) rfl
                  (PcOk.of_ok (State.setPc_self _ t _) ?_ rfl rfl)
                change CvFree (if l.broadcast then 0#32 else (s.cv l.pcv).word)
                split
                · exact .zero
                · exact hfree
              · next first rest hq =>
                  have hmem : ∀ w, first ∈ ((s.setCv l.pcv { s.cv l.pcv with word := w }).cv
                      l.pcv).waiters := by
                    intro w
                    rw [State.waiters_setCv, hq]
                    exact List.mem_cons_self ..
                  split
                  · refine h.cvTake hpc rfl rfl hfree rfl (Or.inl rfl) rfl
                      (PcOk.of_signal (State.setPc_self _ t _) hfree fun y hy => ?_)
                    cases hy
                    exact ⟨l.pcv, rfl, hmem _⟩
                  · refine h.cvTake hpc rfl rfl hfree rfl (Or.inl rfl) rfl
                      (PcOk.of_signal (State.setPc_self _ t _) ⟨hnil, hfree⟩ fun y hy => ?_)
                    cases hy
                    exact ⟨l.pcv, rfl, hmem _⟩
          · exact h.goto hpc rfl rfl hnil rfl rfl
  | removeFirst old x lc =>
      cases lc with
      | load => exact h.gotoTarget hpc rfl rfl hok htarget
      | cas rc =>
          obtain ⟨hnil, hfree⟩ := hok
          obtain ⟨c, hc, hx⟩ := htarget x rfl
          cases hc
          simp only [cvSignal]
          split
          · split
            · refine h.select hpc rfl hx ⟨rfl, rfl, by rw [hnil]; rfl⟩ rfl hfree ?_
              intro y hy
              exact List.mem_of_mem_head? hy
            · exact h.select hpc rfl hx ⟨rfl, rfl, by rw [hnil]; rfl⟩ rfl (hfree.done _ _) (by rintro _ ⟨⟩)
          · exact h.gotoTarget hpc rfl rfl ⟨hnil, hfree⟩ htarget
  | loop old =>
      rw [cvSignal]
      split
      · exact h.goto hpc rfl rfl (CvFree.done hok _ _) rfl rfl
      · next x hx =>
          obtain ⟨c, hc, hxq⟩ := htarget x hx
          cases hc
          have hgo : ∀ l' : Signal T, l'.pcv = l.pcv → l'.held = l.held → l'.toWake = l.toWake →
              Simulates E C t s loc (s.setPc t (.signal l' (.remove old x .load))) := by
            intro l' h1 h2 h3
            refine h.gotoTarget hpc ?_ ?_ hok fun y hy => ?_
            · simp only [Pc.lists, Pc.toWake, h3]
              rfl
            · simp only [Pc.abs, Pc.lockRole, Pc.cvRole, h1, h2]
              rfl
            · cases hy
              exact ⟨l.pcv, by rw [← h1]; rfl, hxq⟩
          split
          · exact hgo _ rfl rfl rfl
          · split
            · exact hgo _ rfl rfl rfl
            · split
              · exact hgo _ rfl rfl rfl
              · refine h.gotoTarget hpc rfl rfl hok fun y hy => ⟨l.pcv, rfl, ?_⟩
                exact List.mem_of_mem_erase (dllNext_mem hnd hxq hy)
  | remove old x lc =>
      cases lc with
      | load => exact h.gotoTarget hpc rfl rfl hok htarget
      | cas rc =>
          obtain ⟨c, hc, hx⟩ := htarget x rfl
          cases hc
          simp only [cvSignal]
          split
          · exact h.select hpc rfl hx ⟨rfl, rfl, rfl⟩ rfl hok fun y hy => dllNext_mem hnd hx hy
          · exact h.gotoTarget hpc rfl rfl hok htarget
  | storeWord old =>
      simp only [cvSignal]
      split
      · next hnil =>
          refine h.cvRelease hpc ?_ rfl hok rfl rfl
            (PcOk.of_ok (State.setPc_self _ t _) trivial rfl rfl)
          simp only [Pc.lists, Pc.toWake, hnil]
          rfl
      · split
        · exact h.cvRelease hpc rfl rfl hok rfl rfl
            (PcOk.of_ok (State.setPc_self _ t _) trivial rfl rfl)
        · exact h.cvRelease hpc rfl rfl hok rfl rfl
            (PcOk.of_ok (State.setPc_self _ t _) trivial rfl rfl)

end Nsync.Mu
