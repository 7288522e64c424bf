import Nsync.Mu.RefineSignal

/-!
# The code refines the protocol

Debugging output, the calls of clients, and with them every step of the code.
The invariant holds at the start, so it holds in every run.
-/

namespace Nsync.Mu

open Nsync.Lib

variable {T σ : Type} [DecidableEq T] [Fintype T] {E : Env σ} {C : WaitCondition → Prop}
  {s : State T σ} {loc : T → Loc T} {t : T}

/-! ## Debugging output -/

theorem Good.dbgTake (h : Good E C s loc) {l : Debug} {old : Word}
    (hpc : s.pc t = .debug l (.spin (.cas old))) (hl : l.target = none) (hword : s.word = old) :
    Simulates E C t s loc
      ((s.setWord (spinWord muSpinlock 0#32 old)).setPc t (.debug l (.store old))) := by
  subst hword
  have hok : Pc.debugOk l (.spin (.cas s.word)) := by
    have := (h.pcs t).ok
    rwa [hpc] at this
  simp only [Pc.debugOk, hl] at hok
  have hstep := AStep.dbgTake (E := E) (C := C) (t := t) (a := s.abs loc) s.word
    (by simp [State.abs, Pc.abs, hpc, Pc.spinRole, hl])
    (by simp [State.abs, Pc.abs, hpc, Pc.region]) rfl hok
  refine h.simple loc (p := .debug l (.store s.word)) rfl (by rw [hpc]; rfl) rfl (fun _ => rfl) rfl
    (fun _ => Or.inl rfl)
    (hstep.of_eq (AState.ext (view_spinWord s.word) (State.abs_th rfl ?_) rfl rfl rfl rfl rfl rfl))
    (PcOk.of_ok (State.setPc_self _ t _) trivial rfl rfl)
  simp only [State.abs, hpc, Pc.abs, Pc.spinRole, Pc.cvRole, hl]
  rfl

theorem Good.dbgStore (h : Good E C s loc) {l : Debug} {w : Word}
    (hpc : s.pc t = .debug l (.store w)) (hl : l.target = none) :
    Simulates E C t s loc ((s.setWord w).setPc t (.client l.held)) := by
  have hstep := AStep.dbgStore (E := E) (C := C) (t := t) (a := s.abs loc) w
    (by simp [State.abs, Pc.abs, hpc, Pc.spinRole, hl])
    (by simp [State.abs, Pc.abs, hpc, Pc.region])
  refine h.simple loc (p := .client l.held) rfl (by rw [hpc]; rfl) rfl (fun _ => rfl) rfl
    (fun _ => Or.inl rfl)
    (hstep.of_eq (AState.ext rfl (State.abs_th rfl ?_) rfl rfl rfl rfl rfl rfl))
    (PcOk.of_ok (State.setPc_self _ t _) trivial rfl rfl)
  simp only [State.abs, hpc, Pc.abs, Pc.cvRole, hl]
  rfl

omit [Fintype T] [DecidableEq T] in
theorem Pc.abs_debug_load (l : Debug) (p : DebugPc) (hp : ∀ w, p ≠ .store w) :
    (Pc.debug l p : Pc T).abs = ⟨l.held, .no, .idle, false, false, false, .no⟩ := by
  cases p with
  | store w => exact (hp w rfl).elim
  | _ => cases hl : l.target <;> simp [Pc.abs, Pc.spinRole, Pc.cvRole, Pc.phase, Pc.region,
      Pc.trying, Pc.longWaiter, Pc.lockRole, hl]

theorem debugState_simulates (h : Good E C s loc) {l : Debug} {p : DebugPc}
    (hpc : s.pc t = .debug l p) : Simulates E C t s loc (debugState s t l p) := by
  have hok : Pc.debugOk l p := by
    have := (h.pcs t).ok
    rwa [hpc] at this
  have hgo : ∀ q : DebugPc, (∀ w, p ≠ .store w) → (∀ w, q ≠ .store w) → Pc.debugOk l q →
      Simulates E C t s loc (s.setPc t (.debug l q)) := by
    intro q hp hq hokq
    exact h.goto hpc rfl (by rw [Pc.abs_debug_load l p hp, Pc.abs_debug_load l q hq]) hokq rfl rfl
  cases p with
  | load =>
      simp only [debugState]
      have hload := hgo (.spin .load) (by simp) (by simp) trivial
      have hclient : Simulates E C t s loc (s.setPc t (.client l.held)) :=
        h.goto hpc rfl (Pc.abs_debug_load l .load (by simp)).symm trivial rfl rfl
      split <;> split <;> assumption
  | spin lc =>
      cases lc with
      | load =>
          simp only [debugState]
          split
          · next hl =>
              split
              · next hz =>
                  refine hgo (.spin (.cas s.word)) (by simp) (by simp) ?_
                  simp only [Pc.debugOk, hl]
                  exact (and_muSpinlock _).mp hz
              · exact hgo (.spin .load) (by simp) (by simp) trivial
          · next c hl =>
              split
              · next hz =>
                  refine hgo (.spin (.cas (s.cv c).word)) (by simp) (by simp) ?_
                  simp only [Pc.debugOk, hl]
                  exact (and_cvSpinlock _).mp hz
              · exact hgo (.spin .load) (by simp) (by simp) trivial
      | cas old =>
          simp only [debugState]
          split
          · next hl =>
              split
              · next hword => exact h.dbgTake hpc hl hword
              · exact hgo (.spin .load) (by simp) (by simp) trivial
          · next c hl =>
              split
              · next hword =>
                  subst hword
                  simp only [Pc.debugOk, hl] at hok
                  refine h.cvTake hpc rfl ?_ hok rfl (Or.inr rfl) ?_
                    (PcOk.of_ok (State.setPc_self _ t _) trivial rfl rfl)
                  · simp only [Pc.cvRole, hl]
                  · simp only [Pc.abs, Pc.spinRole, Pc.cvRole, hl]
                    rfl
              · exact hgo (.spin .load) (by simp) (by simp) trivial
  | store w =>
      simp only [debugState]
      split
      · next hl => exact h.dbgStore hpc hl
      · next c hl =>
          have hrole : (Pc.debug l (.store w) : Pc T).cvRole = .dbg c w := by
            simp only [Pc.cvRole, hl]
          refine h.cvRelease hpc rfl ?_ ?_ rfl ?_
            (PcOk.of_ok (State.setPc_self _ t _) trivial rfl rfl)
          · rw [hrole]
            rfl
          · exact (h.inv.cv.dbg t c w (by simp only [State.abs, hpc]; exact hrole)).2
          · simp only [Pc.abs, Pc.spinRole, hl]
            rfl

/-! ## Calls -/

/-- The conditions of a call are among those in `C`. -/
def Act.CondIn (C : WaitCondition → Prop) : Act σ → Prop
  | .call (.muWait (some c) _) => C c
  | _ => True

theorem callStep_simulates (h : Good E C s loc) {held : Option Mode} {c : Call σ}
    (hpc : s.pc t = .client held) (hC : (Act.call c).CondIn C) {s' : State T σ}
    (hs : callStep s t held c = some s') : Simulates E C t s loc s' := by
  cases c with
  | lock m | tryLock m =>
      simp only [callStep] at hs
      split at hs
      · next hheld =>
          cases hs
          subst hheld
          exact h.goto hpc rfl rfl ⟨trivial, fun _ => rfl, trivial⟩ rfl rfl
      · cases hs
  | unlock kind =>
      simp only [callStep] at hs
      split at hs
      · next hheld =>
          cases hs
          subst hheld
          exact h.goto hpc rfl rfl ⟨trivial, trivial⟩ rfl rfl
      · cases hs
  | muWait condition expires =>
      cases held with
      | none => cases hs
      | some m =>
          cases hs
          refine h.goto hpc rfl rfl ⟨rfl, ?_, trivial⟩ rfl rfl
          intro c hc
          cases hc
          exact hC
  | cvWait pcv expires =>
      cases held with
      | none => cases hs
      | some m =>
          cases hs
          exact h.goto hpc rfl rfl ⟨rfl, rfl⟩ rfl rfl
  | signal pcv broadcast =>
      cases hs
      exact h.goto hpc rfl rfl rfl rfl rfl
  | debug target printWaiters =>
      cases hs
      exact h.goto hpc rfl (Pc.abs_debug_load _ .load (by simp)) trivial rfl rfl
  | setProt x =>
      simp only [callStep] at hs
      split at hs
      · next hheld =>
          cases hs
          subst hheld
          have hstep := AStep.mutate (E := E) (C := C) (t := t) (a := s.abs loc) x
            (by simp [State.abs, Pc.abs, hpc, Pc.lockRole])
            (by simp [State.abs, Pc.abs, hpc, Pc.spinRole])
            (by simp [State.abs, Pc.abs, hpc, Pc.region])
          exact h.simple loc (p := s.pc t) (Function.update_eq_self t s.pc).symm rfl rfl
            (fun _ => rfl) rfl (fun _ => Or.inl rfl) hstep (PcOk.of_ok hpc trivial rfl rfl)
      · cases hs

/-- A post by somebody outside the system. -/
theorem post_simulates (h : Good E C s loc) :
    Simulates E C t s loc (s.setWtr t (Waiter.post E)) := by
  have hwtr : ∀ y, ((s.setWtr t (Waiter.post E)).wtr y).core = (s.wtr y).core := by
    intro y
    by_cases hy : y = t
    · subst hy
      simp [State.setWtr, Waiter.post, Waiter.core]
    · simp [State.setWtr, hy]
  have hcond : ∀ y, ((s.setWtr t (Waiter.post E)).wtr y).cond = (s.wtr y).cond ∧
      ((s.setWtr t (Waiter.post E)).wtr y).lType = (s.wtr y).lType := by
    intro y
    have := hwtr y
    simp only [Waiter.core, Waiter.mk.injEq] at this
    exact ⟨this.2.2.2.2.2, this.2.2.2.2.1⟩
  obtain ⟨hok, htarget, hscan, hplace⟩ := h.pcs t
  refine h.stutter (p := s.pc t) (Function.update_eq_self t s.pc).symm rfl rfl rfl rfl rfl hwtr rfl
    rfl rfl rfl ⟨hok.congr (hcond t).1 (hcond t).2, htarget, fun sc hsc => ?_, ?_⟩
  · obtain ⟨done, rest, hinv⟩ := hscan sc hsc
    exact ⟨done, rest, hinv.frame (fun y _ => hcond y) (fun _ => rfl) fun _ hn => hn⟩
  · change (s.pc t).ScanPlace (s.setWtr t (Waiter.post E)).wtr
    generalize s.pc t = p at hplace
    rcases p with _ | _ | _ | _ | ⟨m, k, p⟩ | _ | _ | _ | _ | _ | _ <;> try trivial
    cases p with
    | scanRemove sc x lc =>
        obtain ⟨hx, hwt, hm⟩ := hplace
        exact ⟨hx, hwt, hm.imp id fun hm => (hcond x).2.trans hm⟩
    | _ => exact hplace

/-- Every step of the code is a step of the protocol. -/
theorem step_simulates (h : Good E C s loc) (hcap : Fits t s) {a : Act σ}
    (hC : a.CondIn C) {s' : State T σ} (hs : step E t a s = some s') :
    Simulates E C t s loc s' := by
  cases a with
  | post =>
      cases hs
      exact post_simulates h
  | call c =>
      simp only [step] at hs
      split at hs
      · next held hpc => exact callStep_simulates h hpc hC hs
      · cases hs
  | step ch =>
      simp only [step] at hs
      cases hpc : s.pc t with
      | client held => simp [hpc] at hs
      | lock m try_ k p =>
          simp only [hpc, Option.some.injEq] at hs
          exact hs ▸ muLock_simulates h hcap hpc
      | lockSlow l k p =>
          simp only [hpc] at hs
          exact muLockSlow_simulates h hcap hpc hs
      | unlock kind k p =>
          simp only [hpc, Option.some.injEq] at hs
          exact hs ▸ muUnlock_simulates h hpc
      | unlockSlow m k p =>
          simp only [hpc, Option.some.injEq] at hs
          exact hs ▸ muUnlockSlow_simulates h hpc
      | muWait l p =>
          simp only [hpc] at hs
          exact muWaitWithDeadline_simulates h hpc hs
      | cvWait l p =>
          simp only [hpc] at hs
          exact cvWaitWithDeadline_simulates h hpc hs
      | signal l p =>
          simp only [hpc, Option.some.injEq] at hs
          exact hs ▸ cvSignal_simulates h hpc
      | wakeWaiters l p =>
          simp only [hpc, Option.some.injEq] at hs
          exact hs ▸ wakeWaiters_simulates h hpc
      | debug l p =>
          simp only [hpc, Option.some.injEq] at hs
          exact hs ▸ debugState_simulates h hpc
      | panicked => simp [hpc] at hs

/-! ## The start -/

omit [DecidableEq T] in
theorem Good.initial (E : Env σ) (C : WaitCondition → Prop) (x : σ) :
    Good E C (initial x : State T σ) fun _ => .none := by
  have hlisted : ∀ k : Loc T, k ≠ .none → Listed (fun _ => Loc.none) [] k :=
    fun k hk => ⟨fun y => by simpa using Ne.symm hk, List.nodup_nil⟩
  refine ⟨⟨hlisted _ (by simp), fun u => hlisted _ (by simp), fun u => hlisted _ (by simp),
    fun c => hlisted _ (by simp), fun u => hlisted _ (by simp)⟩, ⟨⟨?_, ?_, ?_, ?_, ?_⟩, ?_, ?_, ?_⟩,
    fun u => PcOk.of_ok rfl trivial rfl rfl, ⟨.nil, fun _ => .nil, fun _ => .nil, fun _ _ _ => ?_⟩⟩
  · intro u
    constructor <;> simp [State.abs, Mu.initial, Pc.abs, Pc.spinRole, Pc.phase, Pc.region,
      Pc.longWaiter]
  · change Shares (view 0#32) fun _ => none
    rw [view_zero]
    refine ⟨⟨by simp [View.zero], by simp⟩, ?_, (by rintro ⟨⟩)⟩
    simp [Counts, View.zero]
  · change Owned (view 0#32).spin fun _ => (SpinRole.no : SpinRole T) ≠ .no
    rw [view_zero]
    exact ⟨by simp [View.zero], by simp⟩
  · exact fun u old hu => by cases hu
  · exact fun u old hu => by cases hu
  · exact ⟨fun u => rfl, (by rintro _ _ ⟨⟩), fun u => by simp [State.abs, Mu.initial, Loc.Dequeued],
      (by rintro _ _ ⟨⟩)⟩
  · refine ⟨fun c => ⟨?_, fun u v hu => ?_⟩, fun u c w hu => ?_⟩
    · simp [State.abs, Mu.initial, Pc.abs, Pc.cvRole]
    · cases hu
    · cases hu
  · refine ⟨fun u v hu => Bool.noConfusion hu, fun u hu => ?_, fun u hu => ?_, fun hd => ?_,
      fun u r hu => ?_, fun u hu => ?_, fun u hu => ?_⟩
    · rcases hu with (hu | ⟨v, hu⟩) | hu <;> cases hu
    · rcases hu with hu | ⟨v, hu⟩ <;> cases hu
    · change (view 0#32).desig = true at hd
      rw [view_zero] at hd
      cases hd
    · cases hu
    · cases hu
    · rcases hu with hu | ⟨b, hu⟩ | ⟨hu, -⟩ <;> cases hu
  · exact ⟨rfl, rfl⟩

end Nsync.Mu
