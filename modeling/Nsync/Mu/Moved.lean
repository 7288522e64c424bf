import Nsync.Mu.Handshake

/-!
# A transfer moves somebody

When `wake_waiters` takes the spinlock of the mutex it moves at least one waiter
to the mutex queue: the first one if it cannot acquire the mutex, and otherwise a
writer behind it.
-/

namespace Nsync.Mu

open Nsync.Lib

variable {T σ : Type}

/-! ## The loop -/

section

variable {isWriter : T → Bool} {f g : Bool} {x : T}

theorem mem_transferRest_moved {l : List T} {r : Transfer T}
    (hx : x ∈ r.moved ∨ x ∈ l ∧ isWriter x = true) : x ∈ (transferRest f g isWriter l r).moved := by
  induction l generalizing r with
  | nil => simpa [transferRest] using hx
  | cons p rest ih =>
      rw [transferRest]
      refine ih ?_
      rcases hx with hx | ⟨hx, hw⟩
      · left
        split <;> simp [hx]
      · rcases List.mem_cons.mp hx with rfl | hx
        · left
          simp [hw]
        · exact Or.inr ⟨hx, hw⟩

theorem transfer_moved_ne_nil {first : T} {rest : List T}
    (h : f = true ∨ ∃ x ∈ rest, isWriter x = true) :
    (transfer f isWriter (first :: rest)).moved ≠ [] := by
  rw [transfer]
  rcases h with rfl | ⟨x, hx, hw⟩
  · exact List.ne_nil_of_mem (mem_transferRest_moved (x := first) (Or.inl (by simp)))
  · exact List.ne_nil_of_mem (mem_transferRest_moved (Or.inr ⟨hx, hw⟩))

end

/-! ## What a signaller knows about the modes of its waiters -/

/-- There is a writer among the listed waiters. -/
def SomeWriter (wtr : T → Waiter) (l : List T) : Prop := ∃ y ∈ l, (wtr y).lType = .writer

/-- The flag `all_readers` is cleared only for a writer, and the spinlock of the
mutex is taken only if that or the word gives a reason. -/
def Pc.KnowsModes (wtr : T → Waiter) : Pc T → Prop
  | .signal l p =>
      match p with
      | .loadWord | .spin _ | .removeFirst _ _ _ => True
      | .loop _ => l.allReaders = false → SomeWriter wtr l.toWake
      | .remove _ x _ => l.allReaders = false → SomeWriter wtr (l.toWake ++ [x])
      | .storeWord _ => l.toWake ≠ [] → l.allReaders = false → SomeWriter wtr l.toWake
  | .wakeWaiters l p =>
      match p with
      | .load => l.allReaders = false → SomeWriter wtr l.toWake
      | .cas old => (l.allReaders = false → SomeWriter wtr l.toWake) ∧
          ∀ first rest, l.toWake = first :: rest →
            old &&& (wtr first).lType.lockType.zeroToAcquire ≠ 0#32 ∨ l.allReaders = false
      | _ => True
  | _ => True

theorem Pc.knowsModes_of_op {p : Pc T} (h : p.op ≠ .signal) (wtr : T → Waiter) :
    p.KnowsModes wtr := by
  cases p with
  | signal | wakeWaiters => exact (h rfl).elim
  | _ => trivial

theorem SomeWriter.congr {wtr wtr' : T → Waiter} {l : List T} (h : SomeWriter wtr l)
    (hw : ∀ x ∈ l, (wtr' x).lType = (wtr x).lType) : SomeWriter wtr' l := by
  obtain ⟨y, hy, hm⟩ := h
  exact ⟨y, hy, (hw y hy).trans hm⟩

/-- The waiters whose modes matter. -/
def Pc.modesOf (p : Pc T) : List T := p.toWake ++ p.target.toList

theorem Pc.KnowsModes.congr {wtr wtr' : T → Waiter} {p : Pc T} (h : p.KnowsModes wtr)
    (hw : ∀ x ∈ p.modesOf, (wtr' x).lType = (wtr x).lType) : p.KnowsModes wtr' := by
  have hto : ∀ x ∈ p.toWake, (wtr' x).lType = (wtr x).lType :=
    fun x hx => hw x (List.mem_append_left _ hx)
  cases p with
  | signal l p =>
      cases p with
      | loadWord | spin | removeFirst => trivial
      | loop old => exact fun hl => (h hl).congr hto
      | remove old x lc => exact fun hl => (h hl).congr hw
      | storeWord old => exact fun hne hl => (h hne hl).congr hto
  | wakeWaiters l p =>
      cases p with
      | load => exact fun hl => (h hl).congr hto
      | cas old =>
          refine ⟨fun hl => (h.1 hl).congr hto, fun first rest heq => ?_⟩
          rw [hto first (by simp [Pc.toWake, heq])]
          exact h.2 first rest heq
      | release | store | sem => trivial
  | _ => trivial

section

variable [DecidableEq T] {E : Env σ} {C : WaitCondition → Prop} {s s' : State T σ} {t u : T}

theorem lType_setWtr {f : Waiter → Waiter} (hf : ∀ w, (f w).lType = w.lType) (x y : T) :
    ((s.setWtr x f).wtr y).lType = (s.wtr y).lType := by
  rcases eq_or_ne y x with rfl | hne
  · simp [State.setWtr, hf]
  · simp [State.setWtr, hne]

/-- A signaller that removes waiters keeps track of their modes. -/
theorem cvSignal_knowsModes {l : Signal T} {p : SignalPc T} {w : Waiter}
    (hok : Pc.Ok C w (.signal l p)) (hk : Pc.KnowsModes s.wtr (.signal l p)) :
    ((cvSignal s t l p).pc t).KnowsModes (cvSignal s t l p).wtr := by
  have hremoved : ∀ x y, ((s.setWtr x Waiter.removed).wtr y).lType = (s.wtr y).lType :=
    lType_setWtr fun w => rfl
  rcases p with _ | ⟨_ | old⟩ | ⟨old, x, _ | _⟩ | old | ⟨old, x, _ | _⟩ | old <;>
    simp only [cvSignal]
  case loadWord | spin.load | removeFirst.load =>
    repeat' split
    all_goals
      rw [State.setPc_self]
      trivial
  case spin.cas =>
    have hnil : l.toWake = [] := hok.1
    repeat' split
    all_goals
      rw [State.setPc_self]
      first
      | trivial
      | exact fun hne => (hne hnil).elim
      | (intro hl; cases hl)
  case removeFirst.cas =>
    split
    · split
      · rw [State.setPc_self]
        intro hl
        cases hl
      · next hm =>
          rw [signalDone, State.setPc_self]
          refine fun _ _ => ⟨x, by simp, ?_⟩
          cases hx : (s.wtr x).lType with
          | reader => exact (hm hx).elim
          | writer => exact (hremoved x x).trans hx
    · rw [State.setPc_self]
      trivial
  case loop =>
    split
    · rw [signalDone, State.setPc_self]
      exact fun _ hl => hk hl
    · next x hx =>
        repeat' split
        all_goals rw [State.setPc_self]
        · intro hl
          rcases Bool.and_eq_false_iff.mp hl with hl | hl
          · obtain ⟨y, hy, hm⟩ := hk hl
            exact ⟨y, List.mem_append_left _ hy, hm⟩
          · refine ⟨x, by simp, ?_⟩
            change (s.wtr x).lType = .writer
            cases hm : (s.wtr x).lType <;> simp_all
        · intro hl
          obtain ⟨y, hy, hm⟩ := hk hl
          exact ⟨y, List.mem_append_left _ hy, hm⟩
        · next hm _ =>
            refine fun _ => ⟨x, by simp, ?_⟩
            change (s.wtr x).lType = .writer
            cases hx : (s.wtr x).lType <;> simp_all
        · exact hk
  case remove.load =>
    rw [State.setPc_self]
    exact hk
  case remove.cas =>
    split <;> rw [State.setPc_self]
    · exact fun hl => (hk hl).congr fun y _ => hremoved x y
    · exact hk
  case storeWord =>
    split
    · rw [State.setPc_self]
      trivial
    · next first rest hl =>
        rw [State.setPc_self]
        split
        · exact fun hr => hk (by simp [hl]) hr
        · trivial

theorem wakeWaiters_knowsModes {l : Wake T} {p : WakePc T}
    (hk : Pc.KnowsModes s.wtr (.wakeWaiters l p)) :
    ((wakeWaiters E s t l p).pc t).KnowsModes (wakeWaiters E s t l p).wtr := by
  have hstart : ∀ (s₁ : State T σ) (l' : Wake T), ((wakeStart s₁ t l').pc t).KnowsModes
      (wakeStart s₁ t l').wtr := by
    intro s₁ l'
    unfold wakeStart
    split <;> rw [State.setPc_self] <;> trivial
  rcases p with _ | _ | ⟨_, _ | _⟩ | _ | x <;> simp only [wakeWaiters]
  case load =>
    split
    · rw [State.setPc_self]
      trivial
    · next first rest hl =>
        split
        · next hcond =>
            rw [State.setPc_self]
            refine ⟨hk, fun first' rest' heq => ?_⟩
            rw [hl, List.cons.injEq] at heq
            obtain ⟨rfl, rfl⟩ := heq
            rcases hcond.2.2 with hc | ⟨-, hc⟩
            · exact Or.inl (of_decide_eq_true hc)
            · exact Or.inr hc
        · exact hstart ..
  all_goals repeat' split
  all_goals
    first
    | exact hstart ..
    | (rw [State.setPc_self]; trivial)

variable [Fintype T] {loc loc' : T → Loc T} {a : Act σ}

omit [DecidableEq T] in
/-- The waiters that a signaller looks at are listed. -/
theorem Good.not_free_of_modesOf (h : Good E C s loc) {x : T} (hx : x ∈ (s.pc u).modesOf) :
    ¬ (loc x).Free := by
  rcases List.mem_append.mp hx with hx | hx
  · rw [((h.lists.toWake u).mem x).mp hx]
    simp [Loc.Free]
  · rw [Option.mem_toList] at hx
    obtain ⟨c, -, hc⟩ := (h.pcs u).target x hx
    rw [((h.lists.cvQ c).mem x).mp hc]
    simp [Loc.Free]

theorem knowsModes_step (hk : ∀ u, (s.pc u).KnowsModes s.wtr) (hg : Good E C s loc)
    (hs : AStep E C t (s.abs loc) (s'.abs loc')) (hstep : step E t a s = some s') (u : T) :
    (s'.pc u).KnowsModes s'.wtr := by
  rcases eq_or_ne u t with rfl | hut
  · cases a with
    | post =>
        cases hstep
        exact (hk u).congr fun x _ => lType_setWtr (f := Waiter.post E) (fun _ => rfl) u x
    | call c =>
        simp only [step] at hstep
        split at hstep
        · next held hpc =>
            cases c <;> simp only [callStep] at hstep
            case muWait | cvWait =>
              cases held <;> cases hstep
              rw [State.setPc_self]
              trivial
            case signal | debug =>
              cases hstep
              rw [State.setPc_self]
              trivial
            case setProt =>
              split at hstep <;> cases hstep
              exact hk u
            all_goals
              split at hstep <;> cases hstep
              rw [State.setPc_self]
              trivial
        · cases hstep
    | step ch =>
        have hku := hk u
        by_cases hop : (s.pc u).op = .signal
        · cases hpc : s.pc u <;> simp only [step, hpc, Option.some.injEq] at hstep <;>
            rw [hpc] at hku
          case signal l p =>
            subst hstep
            exact cvSignal_knowsModes (hpc ▸ (hg.pcs u).ok) hku
          case wakeWaiters l p =>
            subst hstep
            exact wakeWaiters_knowsModes hku
          all_goals
            rw [hpc] at hop
            first
            | cases hop
            | (rename LockCont => k; cases k <;> cases hop)
            | (rename UnlockCont => k; cases k <;> cases hop)
        · obtain ⟨p, hp, hcase⟩ := step_op (hg.pcs u).ok hstep
          rw [hp, Function.update_self]
          refine Pc.knowsModes_of_op ?_ _
          rcases hcase with hcase | hcase | ⟨c, held, hc, -⟩
          · rw [hcase]
            exact hop
          · rw [hcase]
            rintro ⟨⟩
          · cases hc
  · rw [step_pc_of_ne hut hstep]
    exact (hk u).congr fun x hx => (hs.wtr_frame (hg.not_free_of_modesOf hx)).2

omit [DecidableEq T] [Fintype T] in
/-- The reason for taking the spinlock is a waiter to be moved. -/
theorem moves_of_cas {l : Wake T} {old : Word} {first : T} {rest : List T} {wtr : T → Waiter}
    (hk : Pc.KnowsModes wtr (.wakeWaiters l (.cas old)))
    (hheld : (view old).wlock = true ∨ (view old).readers ≠ 0) (hl : l.toWake = first :: rest) :
    decide (old &&& (wtr first).lType.lockType.zeroToAcquire ≠ 0#32) = true ∨
      ∃ x ∈ rest, ((wtr x).lType == .writer) = true := by
  rw [decide_eq_true_eq]
  obtain ⟨hwriter, hreason⟩ := hk
  rcases hreason first rest hl with hcant | hr
  · exact Or.inl hcant
  · obtain ⟨y, hy, hm⟩ := hwriter hr
    rw [hl] at hy
    rcases List.mem_cons.mp hy with rfl | hy
    · -- a writer cannot acquire a mutex that is held
      left
      rw [hm, ne_eq, and_zeroToAcquire]
      rintro ⟨hw, hn, -⟩
      rcases hheld with hheld | hheld
      · simp [hw] at hheld
      · exact hheld hn
    · exact Or.inr ⟨y, hy, by simp [hm]⟩

omit [Fintype T] in
/-- Whoever takes the spinlock of the mutex for a transfer has moved a waiter. -/
theorem step_xfer (hk : (s.pc t).KnowsModes s.wtr) (hok : (s.pc t).Ok C (s.wtr t))
    (hstep : step E t a s = some s') {b : Bool} (hspin : ∀ b, (s.pc t).spinRole ≠ .xfer b)
    (hspin' : (s'.pc t).spinRole = .xfer b) : s'.waiters ≠ [] := by
  have hne : ∀ {s₁ : State T σ} {p : Pc T} {P : Prop}, ((s₁.setPc t p).pc t).spinRole = .xfer b →
      p.spinRole = .no → P := by
    intro s₁ p P h hp
    rw [State.setPc_self, hp] at h
    cases h
  cases a with
  | post =>
      cases hstep
      exact (hspin b hspin').elim
  | call c =>
      simp only [step] at hstep
      split at hstep
      · next held hpc =>
          rw [callStep_spinRole hpc hstep] at hspin'
          cases hspin'
      · cases hstep
  | step ch =>
      have hop : (s.pc t).op = .signal := by
        obtain ⟨p, hp, hcase⟩ := step_op hok hstep
        have hp' : p.op = .signal := by
          rw [hp, Function.update_self] at hspin'
          cases p with
          | wakeWaiters => rfl
          | lockSlow l k p => cases p <;> cases hspin'
          | unlockSlow m k p =>
              cases p <;> simp only [Pc.spinRole, reduceCtorEq] at hspin'
              all_goals split at hspin' <;> cases hspin'
          | muWait l p => cases p <;> cases hspin'
          | debug l p =>
              rcases l with ⟨_, _ | _, _⟩ <;> cases p <;> cases hspin'
          | _ => cases hspin'
        rcases hcase with hcase | hcase | ⟨c, held, hc, -⟩
        · exact hcase.symm.trans hp'
        · simp [hp'] at hcase
        · cases hc
      cases hpc : s.pc t <;> simp only [step, hpc, Option.some.injEq] at hstep <;>
        rw [hpc] at hop hk hok hspin
      case signal l p =>
        subst hstep
        rcases p with _ | ⟨_ | _⟩ | ⟨_, _, _ | _⟩ | _ | ⟨_, _, _ | _⟩ | _ <;>
          simp only [cvSignal, signalDone] at hspin' <;> repeat' split at hspin'
        all_goals exact hne hspin' rfl
      case wakeWaiters l p =>
        subst hstep
        have hstart : ∀ {s₁ : State T σ} {l' : Wake T},
            ¬ ((wakeStart s₁ t l').pc t).spinRole = .xfer b := by
          intro s₁ l'
          unfold wakeStart
          split <;> simp [State.setPc, Pc.spinRole]
        rcases p with _ | old | ⟨_, _ | _⟩ | _ | x <;> simp only [wakeWaiters] at hspin' ⊢
        case load =>
          repeat' split at hspin'
          all_goals
            first
            | exact hne hspin' rfl
            | exact (hstart hspin').elim
        case cas =>
          split at hspin'
          · exact hne hspin' rfl
          · next first rest hl =>
              split at hspin'
              · next hword =>
                  rw [if_pos hword]
                  refine List.append_ne_nil_of_right_ne_nil _ ?_
                  rw [hl]
                  exact transfer_moved_ne_nil (moves_of_cas hk hok.1 hl)
              · exact (hstart hspin').elim
        case release.load | release.cas => exact (hspin _ rfl).elim
        case store =>
          split at hspin' <;> exact hne hspin' rfl
        case sem => exact (hstart hspin').elim
      all_goals
        first
        | cases hop
        | (rename LockCont => k; cases k <;> cases hop)
        | (rename UnlockCont => k; cases k <;> cases hop)

end

end Nsync.Mu
