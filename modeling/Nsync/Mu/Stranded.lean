import Nsync.Mu.AllFalse
import Nsync.Mu.Moved

/-!
# No waiter is stranded

Without conditional waits, somebody is responsible for the queue as long as it is
not empty: a holder of the mutex, an unlocker that looks for waiters, or a waiter
that has been woken and has not tried again yet.
-/

namespace Nsync.Mu

open Nsync.Lib

variable {T σ : Type} [DecidableEq T]

variable {E : Env σ} {C : WaitCondition → Prop} {t u x : T} {a a' : AState T σ}

/-- The thread is not in `nsync_mu_wait_with_deadline`. -/
structure Abs.Plain (b : Abs T) : Prop where
  trying : b.trying = false
  hold : ∀ old, b.spin ≠ .hold old
  armed : ∀ rc, b.phase ≠ .armed rc
  mine : b.phase ≠ .muMine
  lock : b.spin = .plain → b.region = false → b.lock = none
  dbg : ∀ w, b.spin ≠ .dbg w

/-- The waiter is queued, or about to be. -/
def AState.Waits (a : AState T σ) (x : T) : Prop := (a.loc x).Queued ∨ (a.th x).spin = .ins

/-- Somebody is going to look after the queue. -/
def AState.Attended (a : AState T σ) : Prop :=
  (∃ u, (a.th u).lock ≠ none) ∨ (∃ u, (a.th u).region = true) ∨ ∃ x, a.deq x = true

structure Tended (a : AState T σ) : Prop where
  cond : a.v.cond = false
  allFalse : a.v.allFalse = false
  waiting : a.v.waiting = true → (∃ x, a.Waits x) ∨ ∃ u, (a.th u).region = true
  writer : a.v.writerWaiting = true →
    ∃ x, (a.wtr x).lType = .writer ∧ (a.Waits x ∨ (a.loc x).Dequeued)
  long : a.v.longWait = true → ∃ x, (a.th x).longWaiter = true
  attended : (∃ x, a.Waits x) → a.Attended

/-! ## Waiters in a step -/

/-- A thread that is about to queue itself goes on to do so. -/
theorem AStep.ins_step (hs : AStep E C t a a') (hx : (a.th x).spin = .ins) :
    a'.Waits x := by
  by_cases hxt : x = t
  · subst hxt
    cases hs with
    | insert => exact Or.inl (Or.inl (by simp))
    | own p tr lw w hc hmine hnew hcond htype hC htr hlw hphase hins => exact (hins hx).elim
    | grab m testing hlk hsp | retake hsp => simp [hx] at hsp
    | next hp =>
        have := hp.spin_cases.1
        simp [hx] at this
    | stutter | dequeue | setWriterWaiting | select | cvWake => exact Or.inr hx
    | removeSelf | cvEnqueue | cvTake | cvRelease | cvRemove => exact Or.inr (by simpa using hx)
    | _ => simp_all
  · exact Or.inr (by rw [hs.th_of_ne hxt, hx])

/-- A waiter leaves the queue only to be woken, or by itself after a timeout. -/
theorem AStep.waits_step (hs : AStep E C t a a') (hp : PlaceInv C a) (hp' : PlaceInv C a')
    (hx : a.Waits x) : a'.Waits x ∨ a'.deq x = true ∧ (a.th t).region = true ∨
      x = t ∧ (a.th t).phase = .muMine := by
  rcases hx with hx | hx
  · cases hs.move hp x with
    | stay h' => exact Or.inl (Or.inl (h' ▸ hx))
    | pick h h' => exact Or.inl (Or.inl (Or.inr ⟨t, h'⟩))
    | giveBack h h' => exact Or.inl (Or.inl (Or.inl h'))
    | dequeue h h' => exact Or.inr (Or.inl ⟨(hp'.deq x).mpr (Or.inl ⟨t, h'⟩), (hp.priv x t h).1⟩)
    | removeSelf hxt h h' hph => exact Or.inr (Or.inr ⟨hxt, hph⟩)
    | leave hxt h h' => exact (hx.not_free h).elim
    | _ => simp_all [Loc.Queued]
  · exact Or.inl (hs.ins_step hx)

theorem Pick.loc_eq_none (hp : Pick E C t a a') (hx : a'.loc x = .none) :
    a.loc x = .none := by
  cases hp with
  | pick => by_cases hq : a.loc x = .muQ <;> simp_all
  | giveBack => by_cases hq : a.loc x = .priv t <;> simp_all

/-- A woken waiter tries again, and acquires or queues itself. -/
theorem AStep.retries (hs : AStep E C t a a') (hp : PlaceInv C a) (hx : (a.loc t).Dequeued) (hx' : a'.loc t = .none) :
    ((a.th t).lock = none ∧ (a'.th t).lock = some (a.wtr t).lType) ∨ (a'.th t).spin = .ins := by
  have hne : a.loc t ≠ .none := by
    rintro h
    simp [h, Loc.Dequeued] at hx
  have hc := hp.compat t
  cases hs with
  | acquire m clear hlk hsp hph hv htype =>
      cases clear with
      | false =>
          rw [hph] at hc
          exact (hne hc).elim
      | true => exact Or.inl ⟨hlk, by simp [htype rfl]⟩
  | enqueue => exact Or.inr (by simp)
  | removeSelf hph | cvRemove c hph =>
      rw [hph] at hc
      simp [hc.1, Loc.Dequeued] at hx
  | cvWake y hy =>
      by_cases hyt : t = y
      · subst hyt
        simp [hy, Loc.Dequeued] at hx
      · simp [hyt, hne] at hx'
  | grab _ _ _ _ _ _ _ _ hp | retake _ _ _ hp | next hp => exact (hne (hp.loc_eq_none hx')).elim
  | transfer xs =>
      simp only [AState.move, AState.setTh, AState.setV] at hx'
      split at hx'
      · cases hx'
      · exact (hne hx').elim
  | dequeue y | wake y | select _ y =>
      by_cases hyt : t = y
      · subst hyt
        simp at hx'
      · simp [hyt, hne] at hx'
  | _ => simp [hne] at hx'

theorem AStep.dequeued_step (hs : AStep E C t a a') (hp : PlaceInv C a) (hx : (a.loc x).Dequeued) :
    (a'.loc x).Dequeued ∨ x = t ∧ ((a.th t).lock = none ∧
      (a'.th t).lock = some (a.wtr t).lType ∨ (a'.th t).spin = .ins) := by
  cases hs.move hp x with
  | stay h' => exact Or.inl (h' ▸ hx)
  | wake h h' => exact Or.inl (Or.inr h')
  | leave hxt h h' =>
      subst hxt
      exact Or.inr ⟨rfl, hs.retries hp hx h'⟩
  | _ => simp_all [Loc.Dequeued]

/-- A waiter stays around until it acquires. -/
theorem AStep.around_step (hs : AStep E C t a a') (hp : PlaceInv C a) (hp' : PlaceInv C a')
    (hx : a.Waits x ∨ (a.loc x).Dequeued) :
    (a'.Waits x ∨ (a'.loc x).Dequeued) ∨
      x = t ∧ ((a.th t).lock = none ∧ (a'.th t).lock = some (a.wtr t).lType ∨
        (a.th t).phase = .muMine) := by
  rcases hx with hx | hx
  · rcases hs.waits_step hp hp' hx with h | ⟨h, -⟩ | ⟨rfl, h⟩
    · exact Or.inl (Or.inl h)
    · exact Or.inl (Or.inr ((hp'.deq x).mp h))
    · exact Or.inr ⟨rfl, Or.inr h⟩
  · rcases hs.dequeued_step hp hx with h | ⟨rfl, h | h⟩
    · exact Or.inl (Or.inr h)
    · exact Or.inr ⟨rfl, Or.inl h⟩
    · exact Or.inl (Or.inl (Or.inr h))

theorem AStep.lType_step (hs : AStep E C t a a') (hx : a.Waits x ∨ (a.loc x).Dequeued) :
    (a'.wtr x).lType = (a.wtr x).lType := by
  by_cases hxt : x = t
  · subst hxt
    cases hs with
    | own p tr lw w hc hmine hnew hcond htype hC htr hlw hphase hins =>
        have hne : a.loc x ≠ .none := by
          intro h
          rcases hx with (hx | hx) | hx
          · simp [h, Loc.Queued] at hx
          · exact hins hx
          · simp [h, Loc.Dequeued] at hx
        simpa using htype.resolve_left hne
    | insert | removeSelf | cvRemove => simp [Waiter.setWaiting, Waiter.removed]
    | dequeue y | wake y | select _ y | cvWake y =>
        by_cases hxy : x = y
        · subst hxy
          simp [Waiter.setWaiting, Waiter.removed]
        · simp [hxy]
    | transfer xs => by_cases hxx : x ∈ xs <;> simp [hxx]
    | grab _ _ _ _ _ _ _ _ hp | retake _ _ _ hp | next hp => cases hp <;> rfl
    | _ => rfl
  · exact (hs.wtr_of_ne hxt).2

/-- `MU_LONG_WAIT` is set by a long waiter that queues itself, and a long waiter
that acquires clears it. -/
theorem AStep.long_cases (hs : AStep E C t a a') (hdbg : ∀ w, (a.th t).spin ≠ .dbg w)
    (hold : ∀ old, (a.th t).spin = .hold old →
      (a.th t).lock ≠ none ∧ a.v.longWait = (view old).longWait)
    (hw : a'.v.longWait = true) :
    (a.v.longWait = true ∧ ((a.th t).longWaiter = true → (a'.th t).longWaiter = true ∧
      ((a.th t).lock = none → (a'.th t).lock = none ∨ (a.th t).trying = true))) ∨
      (a'.th t).spin = .ins ∧ (a'.th t).longWaiter = true := by
  cases hs with
  | own p tr lw w hc hmine hnew hcond htype hC htr hlw =>
      exact Or.inl ⟨hw, fun hl => ⟨by simpa using hlw hl, fun hn => Or.inl (by simpa using hn)⟩⟩
  | acquire m clear =>
      have hw' : a.v.longWait = true ∧ (a.th t).longWaiter = false := by
        cases m <;> simpa [View.acquire, View.addShare] using hw
      exact Or.inl ⟨hw'.1, fun hl => by simp [hw'.2] at hl⟩
  | enqueue m clear hlk =>
      have hw' : a.v.longWait = true ∨ (a.th t).longWaiter = true := by
        simpa [View.enqueue] using hw
      rcases hw' with hw' | hl
      · exact Or.inl ⟨hw', fun hl => ⟨by simpa using hl, fun _ => Or.inl (by simpa using hlk)⟩⟩
      · exact Or.inr ⟨by simp, by simpa using hl⟩
  | final r hsp =>
      have hw' : a.v.longWait = true := by
        cases hr : r.late <;> simpa [View.final, View.dropShare, hr] using hw
      exact Or.inl ⟨hw', fun hl => ⟨by simpa using hl, fun _ => Or.inl (by simp)⟩⟩
  | grab m testing hlk _ _ _ _ _ hp =>
      have hw' : a.v.longWait = true := by
        rw [hp.v_eq] at hw
        cases testing <;> cases m <;> exact hw
      exact Or.inl ⟨hw', fun hl => ⟨by cases hp <;> simpa using hl, fun hn => by simp [hlk] at hn⟩⟩
  | retake _ _ _ hp | next hp =>
      have hw' : a.v.longWait = true := by
        rw [hp.v_eq] at hw
        exact hw
      refine Or.inl ⟨hw', fun hl => ⟨by cases hp <;> simpa using hl, fun hn => Or.inl ?_⟩⟩
      cases hp <;> simpa using hn
  | release m | muRelease m =>
      exact Or.inl ⟨by cases m <;> exact hw, fun hl => ⟨by simpa using hl, fun _ => Or.inl (by simp)⟩⟩
  | tryAcquire old hlk hsp htr =>
      exact Or.inl ⟨hw, fun hl => ⟨by simpa using hl, fun _ => Or.inr htr⟩⟩
  | tryDone m old hsp hph =>
      have hw' : (view old).longWait = true := by cases m <;> exact hw
      exact Or.inl ⟨(hold old hsp).2.trans hw',
        fun hl => ⟨by simpa using hl, fun hn => ((hold old hsp).1 hn).elim⟩⟩
  | tryFail old hsp =>
      exact Or.inl ⟨(hold old hsp).2.trans hw,
        fun hl => ⟨by simpa using hl, fun _ => Or.inl (by simp)⟩⟩
  | dbgStore w hsp => exact (hdbg w hsp).elim
  | stutter | dequeue | wake | setWriterWaiting | select | cvWake | mutate =>
      exact Or.inl ⟨hw, fun hl => ⟨hl, fun hn => Or.inl hn⟩⟩
  | _ => exact Or.inl ⟨hw, fun hl => ⟨by simpa using hl, fun hn => Or.inl (by simpa using hn)⟩⟩

namespace Tended

variable [Fintype T]

omit [Fintype T] in
theorem step_cond (h : Tended a) (hs : AStep E (fun _ => False) t a a') (ht : (a.th t).Plain) :
    a'.v.cond = false := by
  have h0 := h.cond
  cases hs with
  | grab m testing _ _ _ _ _ _ hp =>
      rw [hp.v_eq]
      cases testing <;> cases m <;> exact h0
  | retake _ _ _ hp | next hp =>
      rw [hp.v_eq]
      exact h0
  | final r =>
      cases hl : r.late <;> simp [View.final, View.dropShare, h0]
  | acquire m | release m | muRelease m => cases m <;> exact h0
  | muEnqueue rc hp => exact (ht.armed rc hp).elim
  | tryDone m old hsp | tryFail old hsp => exact (ht.hold old hsp).elim
  | dbgStore w hsp => exact (ht.dbg w hsp).elim
  | _ => exact h0

theorem step_allFalse (h : Tended a) (hi : AInv E (fun _ => False) a)
    (hs : AStep E (fun _ => False) t a a') (ht : (a.th t).Plain) : a'.v.allFalse = false := by
  have h0 := h.allFalse
  cases hs with
  | grab m testing _ _ _ _ _ _ hp =>
      rw [hp.v_eq]
      cases testing <;> cases m <;> exact h0
  | retake _ _ _ hp | next hp =>
      rw [hp.v_eq]
      exact h0
  | final r hsp =>
      -- nobody has a condition, so the scan can have left nobody
      have hf := hi.queue.fin t r hsp
      cases hr : r.setAllFalse with
      | false => simp [View.final]
      | true =>
          have hnone : r.noneLeft = true := by
            rw [hf.noneLeft]
            intro x hx
            obtain ⟨c, hc, -⟩ := hf.allFalse hr x hx
            exact hi.place.conds x c hc
          simp [View.final, hnone]
  | acquire m | muRelease m => cases m <;> exact h0
  | release m =>
      cases m <;> simp [View.releaseShare, View.dropShare, h0]
  | enqueue | transfer | muEnqueue => rfl
  | tryDone m old hsp | tryFail old hsp => exact (ht.hold old hsp).elim
  | dbgStore w hsp => exact (ht.dbg w hsp).elim
  | _ => exact h0

theorem step_writer (h : Tended a) (hi : AInv E (fun _ => False) a)
    (hp' : PlaceInv (fun _ => False) a') (hs : AStep E (fun _ => False) t a a')
    (ht : (a.th t).Plain) (hw : a'.v.writerWaiting = true) :
    ∃ x, (a'.wtr x).lType = .writer ∧ (a'.Waits x ∨ (a'.loc x).Dequeued) := by
  -- the writer that stood for the bit still does, unless it has acquired
  have hold : a.v.writerWaiting = true →
      ¬ ((a.th t).lock = none ∧ (a'.th t).lock = some .writer) →
      ∃ x, (a'.wtr x).lType = .writer ∧ (a'.Waits x ∨ (a'.loc x).Dequeued) := by
    intro hw₀ hnot
    obtain ⟨x, hm, hx⟩ := h.writer hw₀
    rcases hs.around_step hi.place hp' hx with hx' | ⟨rfl, ⟨hlk, hlk'⟩ | hmine⟩
    · exact ⟨x, (hs.lType_step hx).trans hm, hx'⟩
    · exact (hnot ⟨hlk, hlk'.trans (by rw [hm])⟩).elim
    · exact (ht.mine hmine).elim
  cases hs with
  | acquire m clear hlk hsp hph hv htype =>
      cases m with
      | reader => exact hold (by simpa [View.acquire] using hw) (by simp)
      | writer => simp [View.acquire] at hw
  | enqueue m clear hlk hsp hph hv hspin htype =>
      cases m with
      | reader => exact hold (by simpa [View.enqueue] using hw) (by simp [hlk])
      | writer => exact ⟨t, by simpa using htype, Or.inl (Or.inr (by simp))⟩
  | final r hsp =>
      cases hr : r.setWriterWaiting with
      | true =>
          obtain ⟨x, hx, hm⟩ := (hi.queue.fin t r hsp).writer hr
          exact ⟨x, by simpa using hm, Or.inl (Or.inl (Or.inl (by simpa using hx)))⟩
      | false =>
          refine hold ?_ (by simp)
          simp only [AState.setTh, AState.setV, View.final, hr, Bool.or_false,
            Bool.and_eq_true] at hw
          exact hw.1
  | transferRelease b hsp =>
      cases b with
      | true =>
          obtain ⟨x, hx, hm⟩ := hi.queue.xfer t hsp
          exact ⟨x, by simpa using hm, Or.inl (Or.inl (Or.inl (by simpa using hx)))⟩
      | false =>
          refine hold ?_ (by simp +contextual)
          simpa [View.transferRelease] using hw
  | grab m testing hlk _ _ _ _ _ hp =>
      refine hold ?_ (by simp [hlk])
      rw [hp.v_eq] at hw
      cases testing <;> cases m <;> exact hw
  | retake _ _ _ hp | next hp =>
      have hv := hp.v_eq
      refine hold (by rw [hv] at hw; exact hw) ?_
      cases hp <;> simp +contextual
  | release m | muRelease m => exact hold (by cases m <;> exact hw) (by simp)
  | tryAcquire old hlk hsp htr => simp [ht.trying] at htr
  | setWriterWaiting htr => simp [ht.trying] at htr
  | tryDone m old hsp | tryFail old hsp => exact (ht.hold old hsp).elim
  | dbgStore w hsp => exact (ht.dbg w hsp).elim
  | stutter | dequeue | wake | select | cvWake | mutate => exact hold hw (by simp +contextual)
  | _ => exact hold hw (by simp +contextual)

omit [Fintype T] in
theorem step_long (h : Tended a) (hs : AStep E (fun _ => False) t a a') (ht : (a.th t).Plain)
    (hw : a'.v.longWait = true) : ∃ x, (a'.th x).longWaiter = true := by
  rcases hs.long_cases ht.dbg (fun old hsp => (ht.hold old hsp).elim) hw with
    ⟨hw₀, hself⟩ | ⟨-, hl⟩
  · obtain ⟨x, hx⟩ := h.long hw₀
    by_cases hxt : x = t
    · subst hxt
      exact ⟨x, (hself hx).1⟩
    · exact ⟨x, by rw [hs.th_of_ne hxt, hx]⟩
  · exact ⟨t, hl⟩

theorem step_waiting (h : Tended a) (hi : AInv E (fun _ => False) a)
    (hp' : PlaceInv (fun _ => False) a') (hs : AStep E (fun _ => False) t a a')
    (ht : (a.th t).Plain)
    (hxfer : (∀ b, (a.th t).spin ≠ .xfer b) → ∀ b, (a'.th t).spin = .xfer b → ∃ x, a'.loc x = .muQ)
    (hw : a'.v.waiting = true) : (∃ x, a'.Waits x) ∨ ∃ u, (a'.th u).region = true := by
  have hold : a.v.waiting = true →
      ((a.th t).region = true → (a'.th t).region = true) →
      (∃ x, a'.Waits x) ∨ ∃ u, (a'.th u).region = true := by
    intro hw₀ hself
    rcases h.waiting hw₀ with ⟨x, hx⟩ | ⟨u, hu⟩
    · rcases hs.waits_step hi.place hp' hx with hx' | ⟨-, hreg⟩ | ⟨-, hmine⟩
      · exact Or.inl ⟨x, hx'⟩
      · exact Or.inr ⟨t, hself hreg⟩
      · exact (ht.mine hmine).elim
    · by_cases hut : u = t
      · subst hut
        exact Or.inr ⟨u, hself hu⟩
      · exact Or.inr ⟨u, by rw [hs.th_of_ne hut, hu]⟩
  cases hs with
  | enqueue => exact Or.inl ⟨t, Or.inr (by simp)⟩
  | transfer xs b hsp =>
      obtain ⟨x, hx⟩ := hxfer (by simp [hsp]) b (by simp)
      exact Or.inl ⟨x, Or.inl (Or.inl hx)⟩
  | muEnqueue rc hp => exact (ht.armed rc hp).elim
  | grab _ _ _ _ _ _ _ _ hp | retake _ _ _ hp | next hp => exact Or.inr ⟨t, hp.region_eq.2⟩
  | final r hsp =>
      have hsome : ¬ r.noneLeft = true := by
        simp only [AState.setTh, AState.setV, View.final, Bool.and_eq_true] at hw
        simpa using hw.2
      rw [(hi.queue.fin t r hsp).noneLeft] at hsome
      push Not at hsome
      obtain ⟨x, hx⟩ := hsome
      exact Or.inl ⟨x, Or.inl (Or.inl (by simpa using hx))⟩
  | acquire m | release m | muRelease m =>
      exact hold (by cases m <;> exact hw) fun hr => by simpa using hr
  | tryDone m old hsp | tryFail old hsp => exact (ht.hold old hsp).elim
  | dbgStore w hsp => exact (ht.dbg w hsp).elim
  | stutter | dequeue | wake | setWriterWaiting | select | cvWake | mutate => exact hold hw id
  | _ => exact hold hw fun hr => by simpa using hr

omit [DecidableEq T] in
theorem exists_holder (hl : LockInv a) (h : a.v.wlock = true ∨ a.v.readers ≠ 0) :
    ∃ u, (a.th u).lock ≠ none := by
  rcases h with hw | hr
  · obtain ⟨u, hu⟩ := hl.shares.write.set_iff.mp hw
    exact ⟨u, by simp [hu]⟩
  · obtain ⟨u, hu⟩ := hl.shares.read.exists_of_pos (Nat.pos_of_ne_zero hr)
    exact ⟨u, by simp [hu]⟩

omit [DecidableEq T] in
/-- A long waiter is queued or has been woken. -/
theorem around_of_long (hi : AInv E (fun _ => False) a) (hx : (a.th x).longWaiter = true) :
    a.Waits x ∨ (a.loc x).Dequeued := by
  have hc := hi.place.compat x
  rcases (hi.lock.wf x).long hx with hp | hp | hp
  · rw [hp] at hc
    exact Or.inr (Or.inr hc)
  · rw [hp] at hc
    rcases hc with ⟨hq | ⟨u, hu⟩, -⟩ | ⟨hw, -⟩
    · exact Or.inl (Or.inl hq)
    · exact Or.inr (Or.inl ⟨u, hu⟩)
    · exact Or.inr (Or.inr hw)
  · exact Or.inl (Or.inr hp)

/-- Somebody else than `t` is going to look after the queue. -/
def AttendedByOther (a : AState T σ) (t : T) : Prop :=
  (∃ u, u ≠ t ∧ (a.th u).lock ≠ none) ∨ (∃ u, u ≠ t ∧ (a.th u).region = true) ∨
    ∃ x, x ≠ t ∧ a.deq x = true

omit [Fintype T] in
theorem AttendedByOther.step (h : AttendedByOther a t) (hs : AStep E (fun _ => False) t a a')
    (hdeq : ∀ x, x ≠ t → a.deq x = true → a'.deq x = true) : a'.Attended := by
  rcases h with ⟨u, hu, hl⟩ | ⟨u, hu, hr⟩ | ⟨x, hx, hd⟩
  · exact Or.inl ⟨u, by rwa [hs.th_of_ne hu]⟩
  · exact Or.inr (Or.inl ⟨u, by rwa [hs.th_of_ne hu]⟩)
  · exact Or.inr (Or.inr ⟨x, hdeq x hx hd⟩)

omit [DecidableEq T] in
/-- Whoever finds that it cannot acquire leaves the queue to somebody else. -/
theorem attended_enqueue (h : Tended a) (hi : AInv E (fun _ => False) a) {m : Mode} {clear : Bool}
    (hlk : (a.th t).lock = none) (hsp : (a.th t).spin = .no)
    (hph : (a.th t).phase = if clear then .redo else .idle) (hv : ¬ a.v.CanAcquire m clear) :
    AttendedByOther a t := by
  by_cases hheld : a.v.wlock = true ∨ a.v.readers ≠ 0
  · obtain ⟨u, hu⟩ := exists_holder hi.lock hheld
    exact Or.inl ⟨u, by rintro rfl; exact hu hlk, hu⟩
  · push Not at hheld
    obtain ⟨hw, hr⟩ := hheld
    rw [ne_eq, Bool.not_eq_true] at hw
    have hcase : clear = false ∧ (a.v.writerWaiting = true ∨ a.v.longWait = true) := by
      cases m <;> cases clear <;> simp_all [View.CanAcquire]
      cases hww : a.v.writerWaiting <;> simp_all
    obtain ⟨rfl, hbit⟩ := hcase
    have hnone : a.loc t = .none := hi.place.loc_of_idle hph
    have hdeq : ∀ {x}, a.deq x = true → x ≠ t := by
      rintro x hd rfl
      have := (hi.place.deq x).mp hd
      simp [hnone, Loc.Dequeued] at this
    obtain ⟨x, hx⟩ : ∃ x, a.Waits x ∨ (a.loc x).Dequeued := by
      rcases hbit with hbit | hbit
      · obtain ⟨x, -, hx⟩ := h.writer hbit
        exact ⟨x, hx⟩
      · obtain ⟨x, hx⟩ := h.long hbit
        exact ⟨x, around_of_long hi hx⟩
    rcases hx with hx | hx
    · rcases h.attended ⟨x, hx⟩ with ⟨u, hu⟩ | ⟨u, hu⟩ | ⟨y, hy⟩
      · exact Or.inl ⟨u, by rintro rfl; exact hu hlk, hu⟩
      · refine Or.inr (Or.inl ⟨u, ?_, hu⟩)
        rintro rfl
        rcases (hi.lock.wf u).region hu with hn | hn
        · exact hn hsp
        · simp [hlk] at hn
      · exact Or.inr (Or.inr ⟨y, hdeq hy, hy⟩)
    · have hd := (hi.place.deq x).mpr hx
      exact Or.inr (Or.inr ⟨x, hdeq hd, hd⟩)

omit [DecidableEq T] in
/-- Whoever releases without a look at the queue leaves it to somebody else. -/
theorem attended_release (h : Tended a) (hi : AInv E (fun _ => False) a) {m : Mode} {b : Bool}
    (hr : (a.th t).region = false) (hv : a.v.Unneeded m b) (hx : a.Waits x) :
    AttendedByOther a t ∨ ∃ y, a.deq y = true := by
  rcases hv with hw | hd | ⟨-, hn | haf⟩ | ⟨-, -, haf⟩
  · simp [hi.queue.waiting x hx] at hw
  · rcases hi.queue.desig hd with ⟨u, hu⟩ | hy
    · refine Or.inl (Or.inr (Or.inl ⟨u, ?_, hu⟩))
      rintro rfl
      simp [hr] at hu
    · exact Or.inr hy
  · obtain ⟨u, hut, hu⟩ := hi.lock.shares.read.exists_ne hn t
    exact Or.inl (Or.inl ⟨u, hut, by simp [hu]⟩)
  · simp [h.allFalse] at haf
  · simp [h.allFalse] at haf

omit [Fintype T] in
/-- Moving one waiter to a place that is not the queue queues nobody. -/
theorem queued_of_update {y : T} {l : Loc T} (hl : ¬ l.Queued)
    (hx : (Function.update a.loc y l x).Queued) : (a.loc x).Queued := by
  by_cases hxy : x = y
  · subst hxy
    rw [Function.update_self] at hx
    exact (hl hx).elim
  · rwa [Function.update_of_ne hxy] at hx

theorem step_attended (h : Tended a) (hi : AInv E (fun _ => False) a)
    (hs : AStep E (fun _ => False) t a a') (ht : (a.th t).Plain) (hx : a'.Waits x) :
    a'.Attended := by
  have carry : a.Attended → ((a.th t).lock ≠ none → (a'.th t).lock ≠ none) →
      ((a.th t).region = true → (a'.th t).region = true) → a'.deq = a.deq → a'.Attended := by
    intro ha hlk hreg hdeq
    rcases ha with ⟨u, hu⟩ | ⟨u, hu⟩ | ⟨y, hy⟩
    · by_cases hut : u = t
      · subst hut
        exact Or.inl ⟨u, hlk hu⟩
      · exact Or.inl ⟨u, by rwa [hs.th_of_ne hut]⟩
    · by_cases hut : u = t
      · subst hut
        exact Or.inr (Or.inl ⟨u, hreg hu⟩)
      · exact Or.inr (Or.inl ⟨u, by rwa [hs.th_of_ne hut]⟩)
    · exact Or.inr (Or.inr ⟨y, by rwa [hdeq]⟩)
  have waits : ((a'.loc x).Queued → (a.loc x).Queued) →
      ((a'.th t).spin = .ins → (a.th t).spin = .ins) → a.Waits x := by
    intro hloc hins
    refine hx.imp hloc fun hi' => ?_
    by_cases hxt : x = t
    · subst hxt
      exact hins hi'
    · rwa [hs.th_of_ne hxt] at hi'
  -- in most steps the queue and those who look after it are the same
  have keep : ((a'.loc x).Queued → (a.loc x).Queued) →
      ((a'.th t).spin = .ins → (a.th t).spin = .ins) →
      ((a.th t).lock ≠ none → (a'.th t).lock ≠ none) →
      ((a.th t).region = true → (a'.th t).region = true) → a'.deq = a.deq → a'.Attended :=
    fun hloc hins => carry (h.attended ⟨x, waits hloc hins⟩)
  have hs₀ := hs
  cases hs with
  | acquire => exact Or.inl ⟨t, by simp⟩
  | enqueue m clear hlk hsp hph hv hspin htype =>
      exact (h.attended_enqueue hi hlk hsp hph hv).step hs₀ fun y hy hd => by simpa [hy] using hd
  | insert hsp => exact carry (h.attended ⟨t, Or.inr hsp⟩) (by simp) (by simp) rfl
  | release m b hlk hsp hr hv =>
      rcases h.attended_release hi hr hv (waits id (by simp)) with hother | ⟨y, hy⟩
      · exact hother.step hs₀ fun _ _ hd => hd
      · exact Or.inr (Or.inr ⟨y, hy⟩)
  | grab _ _ _ _ _ _ _ _ hp | retake _ _ _ hp | next hp =>
      exact Or.inr (Or.inl ⟨t, hp.region_eq.2⟩)
  | dequeue y => exact Or.inr (Or.inr ⟨y, by simp⟩)
  | final r hsp =>
      have hf := hi.queue.fin t r hsp
      by_cases hwake : r.wake = []
      · -- the scan has found nobody to wake because nobody is there
        rcases waits id (by simp) with hq | hins
        · obtain ⟨c, hc, -⟩ := (hi.allFalse_final hsp (hf.woke hwake)).1 x hq
          exact (hi.place.conds x c hc).elim
        · have hne : x ≠ t := by
            rintro rfl
            simp [hsp] at hins
          simp [hi.lock.no_spin_of (by simp [hsp]) hne] at hins
      · rw [hf.wake] at hwake
        push Not at hwake
        obtain ⟨y, hy⟩ := hwake
        exact Or.inr (Or.inr ⟨y, (hi.place.deq y).mpr (Or.inl ⟨t, hy⟩)⟩)
  | transfer xs b hsp hr hspin hheld =>
      exact carry (Or.inl (exists_holder hi.lock hheld)) (by simp) (by simp) rfl
  | muEnqueue rc hp => exact (ht.armed rc hp).elim
  | muRelease m hlk hsp hr => simp [ht.lock hsp hr] at hlk
  | tryAcquire old hlk hsp htr => simp [ht.trying] at htr
  | tryDone m old hsp | tryFail old hsp => exact (ht.hold old hsp).elim
  | removeSelf hph => exact (ht.mine hph).elim
  | stutter | setWriterWaiting | mutate => exact keep id id id id rfl
  | wake y | select _ y | cvWake y => exact keep (queued_of_update (by simp [Loc.Queued])) id id id rfl
  | cvEnqueue | cvRemove =>
      exact keep (queued_of_update (by simp [Loc.Queued])) (by simp) (by simp) (by simp) rfl
  | _ => exact keep id (by simp) (by simp) (by simp) rfl

theorem step (h : Tended a) (hi : AInv E (fun _ => False) a)
    (hp' : PlaceInv (fun _ => False) a') (hs : AStep E (fun _ => False) t a a')
    (ht : (a.th t).Plain)
    (hxfer : (∀ b, (a.th t).spin ≠ .xfer b) → ∀ b, (a'.th t).spin = .xfer b →
      ∃ x, a'.loc x = .muQ) : Tended a' where
  cond := h.step_cond hs ht
  allFalse := h.step_allFalse hi hs ht
  waiting := h.step_waiting hi hp' hs ht hxfer
  writer := h.step_writer hi hp' hs ht
  long := h.step_long hs ht
  attended := fun ⟨_, hx⟩ => h.step_attended hi hs ht hx

end Tended

/-! ## Runs -/

section

variable [Fintype T] {s s' : State T σ} {loc : T → Loc T}

/-- The call is not `nsync_mu_wait_with_deadline`. -/
def Act.NoMuWait : Act σ → Prop
  | .call (.muWait _ _) => False
  | _ => True

/-- Regular calls without conditional waits. -/
def Unconditional (t : T) (a : Act σ) (s : State T σ) : Prop := a.NoMuWait ∧ Regular t a s

omit [DecidableEq T] [Fintype T] in
theorem Call.op_ne_muWait {c : Call σ} (h : (Act.call c).NoMuWait) (held : Option Mode)
    (m : Mode) : c.op held ≠ .muWait m := by
  cases c <;> first | exact h.elim | simp [Call.op]

omit [DecidableEq T] [Fintype T] in
theorem Pc.plain_abs {p : Pc T} (hop : ∀ m, p.op ≠ .muWait m) (hdbg : p.op ≠ .debug) :
    p.abs.Plain := by
  cases p with
  | muWait l p => exact (hop _ rfl).elim
  | debug l p => exact (hdbg rfl).elim
  | lockSlow l k p =>
      cases p <;> constructor <;> simp [Pc.abs, Pc.trying, Pc.spinRole, Pc.phase, Pc.lockRole] <;>
        cases l.clear <;> simp
  | unlock kind k p =>
      cases k <;> constructor <;>
        simp [Pc.abs, Pc.trying, Pc.spinRole, Pc.phase, UnlockCont.phase]
  | unlockSlow m k p =>
      have hhold : ∀ old, (Pc.unlockSlow m k p).spinRole ≠ .hold old := by
        intro old
        cases p <;> simp only [Pc.spinRole, ne_eq, reduceCtorEq, not_false_eq_true] <;> split <;>
          simp
      have hlock : (Pc.unlockSlow m k p).spinRole = .plain → (Pc.unlockSlow m k p).region = true := by
        cases p <;> simp [Pc.spinRole, Pc.region]
      refine ⟨rfl, hhold, fun rc => ?_, ?_, fun hs hr => ?_, Pc.spinRole_ne_dbg hdbg⟩
      · cases k <;> simp [Pc.abs, Pc.phase, UnlockCont.phase]
      · cases k <;> simp [Pc.abs, Pc.phase, UnlockCont.phase]
      · simp [Pc.abs, hlock hs] at hr
  | cvWait l p =>
      cases p <;> constructor <;> simp [Pc.abs, Pc.trying, Pc.spinRole, Pc.phase] <;>
        cases l.outcome <;> simp
  | wakeWaiters l p =>
      cases p <;> constructor <;> simp [Pc.abs, Pc.trying, Pc.spinRole, Pc.phase]
  | _ => constructor <;> simp [Pc.abs, Pc.trying, Pc.spinRole, Pc.phase]

omit [DecidableEq T] [Fintype T] in
theorem tended_initial (y : σ) (loc : T → Loc T) (hloc : ∀ x, loc x = .none) :
    Tended ((initial y : State T σ).abs loc) where
  cond := by simp [State.abs, initial, view]
  allFalse := by simp [State.abs, initial, view]
  waiting h := by simp [State.abs, initial, view] at h
  writer h := by simp [State.abs, initial, view] at h
  long h := by simp [State.abs, initial, view] at h
  attended := by
    rintro ⟨x, hx | hx⟩
    · simp [State.abs, hloc, Loc.Queued] at hx
    · simp [State.abs, initial, Pc.abs, Pc.spinRole] at hx

omit [Fintype T] in
theorem step_op_ne_muWait {a : Act σ} {C : WaitCondition → Prop} {w : Waiter}
    (hok : (s.pc t).Ok C w) (h : ∀ u m, (s.pc u).op ≠ .muWait m) (ha : a.NoMuWait)
    (hs : step E t a s = some s') (u : T) (m : Mode) : (s'.pc u).op ≠ .muWait m := by
  obtain ⟨p, hp, hcase⟩ := step_op hok hs
  rw [hp]
  rcases eq_or_ne u t with rfl | hut
  · rw [Function.update_self]
    rcases hcase with hcase | hcase | ⟨c, held, rfl, -, hcase⟩
    · rw [hcase]
      exact h u m
    · rw [hcase]
      nofun
    · rw [hcase]
      exact Call.op_ne_muWait ha held m
  · rw [Function.update_of_ne hut]
    exact h u m

omit [DecidableEq T] [Fintype T] in
theorem Act.NoMuWait.condIn {a : Act σ} (h : a.NoMuWait) : a.CondIn fun _ => False := by
  rcases a with ⟨_ | _ | _ | ⟨_ | _, _⟩ | _ | _ | _ | _⟩ | _ | _ <;> first | exact h.elim | trivial

/-- The queue is looked after in every run without conditional waits. -/
theorem Reachable.tended {y : σ} (h : Reachable E Unconditional y s) :
    ∃ loc, Good E (fun _ => False) s loc ∧ Tended (s.abs loc) := by
  have key : (∃ loc, Good E (fun _ => False) s loc ∧ Tended (s.abs loc)) ∧
      (∀ u, (s.pc u).KnowsModes s.wtr) ∧ ∀ u m, (s.pc u).op ≠ .muWait m := by
    refine h.invariant (I := fun s => (∃ loc, Good E (fun _ => False) s loc ∧
      Tended (s.abs loc)) ∧ (∀ u, (s.pc u).KnowsModes s.wtr) ∧ ∀ u m, (s.pc u).op ≠ .muWait m)
      ⟨⟨_, Good.initial E _ y, tended_initial y _ fun _ => rfl⟩, fun _ => trivial, nofun⟩ ?_
    rintro t a s₁ s₂ hr ⟨⟨loc, hg, ht⟩, hk, hop⟩ ⟨ha, hreg⟩ hs
    have hdbg := (hr.good_of_noDebug (C := fun _ => False) fun _ _ _ hP =>
      ⟨hP.1.condIn, hP.2.1, hP.2.2⟩).2
    obtain ⟨loc', hstep, hg'⟩ := step_simulates hg hreg.2 ha.condIn hs
    have hg' := hg' fun u w _ hw => (Pc.spinRole_ne_dbg (hdbg u) w hw).elim
    refine ⟨⟨loc', hg', ht.step hg.inv hg'.inv.place hstep (Pc.plain_abs (hop t) (hdbg t)) ?_⟩,
      knowsModes_step hk hg hstep hs, step_op_ne_muWait (hg.pcs t).ok hop ha hs⟩
    intro hno b hb
    obtain ⟨x, hx⟩ := List.exists_mem_of_ne_nil _ (step_xfer (hk t) (hg.pcs t).ok hs hno hb)
    exact ⟨x, (hg'.lists.muQ.mem x).mp hx⟩
  exact key.1

/-- The thread is outside all calls, or blocked on its semaphore with its flag
set. -/
def Idle (s : State T σ) (u : T) : Prop :=
  (∃ held, s.pc u = .client held) ∨
    (s.pc u).sleeping = true ∧ (s.wtr u).waiting = true ∧ (s.wtr u).sem = 0

omit [DecidableEq T] [Fintype T] in
theorem Idle.roles (h : Idle s u) : (s.pc u).spinRole = .no ∧ (s.pc u).region = false ∧
    (s.pc u).wake = [] := by
  rcases h with ⟨held, hpc⟩ | ⟨hs, -⟩
  · rw [hpc]
    exact ⟨rfl, rfl, rfl⟩
  · generalize s.pc u = p at hs
    cases p with
    | lockSlow l k p | muWait l p | cvWait l p =>
        cases p <;> first | exact ⟨rfl, rfl, rfl⟩ | cases hs
    | _ => cases hs

omit [DecidableEq T] in
/-- The waiter of an idle thread has not been woken. -/
theorem Idle.not_woken (h : Idle s u) {C : WaitCondition → Prop} (hg : Good E C s loc) :
    loc u ≠ .woken := by
  intro hw
  have hc : Compat (loc u) (s.wtr u).core (s.pc u).phase := hg.inv.place.compat u
  rw [hw] at hc
  rcases h with ⟨held, hpc⟩ | ⟨hs, hwait, -⟩
  · rw [hpc] at hc
    cases hc
  · have hwait' : (s.wtr u).core.waiting = true := hwait
    generalize s.pc u = p at hs hc
    cases p with
    | lockSlow l k p | muWait l p | cvWait l p =>
        cases p <;> first | (cases hs; done) | simp_all [Pc.phase, Compat, Loc.Queued]
    | _ => cases hs

/-- Without conditional waits, when nobody holds the mutex and every thread is
outside all calls or blocked with its flag set, the queue is empty and the word
is 0. -/
theorem no_stranded_waiter {y : σ} (h : Reachable E Unconditional y s)
    (hfree : ∀ u, (s.pc u).lockRole = none) (hidle : ∀ u, Idle s u) :
    s.waiters = [] ∧ s.word = 0#32 := by
  obtain ⟨loc, hg, ht⟩ := h.tended
  have hdeq : ∀ x, ¬ (loc x).Dequeued := by
    rintro x (⟨u, hu⟩ | hw)
    · have hmem := ((hg.lists.wake u).mem x).mpr hu
      rw [(hidle u).roles.2.2] at hmem
      cases hmem
    · exact (hidle x).not_woken hg hw
  have hregion : ∀ u, ¬ (s.pc u).region = true := by
    intro u
    rw [(hidle u).roles.2.1]
    exact Bool.false_ne_true
  have hwaits : ∀ x, ¬ (s.abs loc).Waits x := by
    intro x hx
    rcases ht.attended ⟨x, hx⟩ with ⟨u, hu⟩ | ⟨u, hu⟩ | ⟨z, hz⟩
    · exact hu (hfree u)
    · exact hregion u hu
    · exact hdeq z ((hg.inv.place.deq z).mp hz)
  have hsh := hg.inv.lock.shares
  refine ⟨?_, view_injective ?_⟩
  · rw [List.eq_nil_iff_forall_not_mem]
    exact fun x hx => hwaits x (Or.inl (Or.inl ((hg.lists.muQ.mem x).mp hx)))
  · rw [view_zero]
    have hnot : ∀ {b : Bool}, ¬ b = true → b = false := fun hb => by simpa using hb
    apply View.ext
    · refine hnot fun hw => ?_
      obtain ⟨u, hu⟩ := hsh.write.set_iff.mp hw
      exact nomatch (hfree u).symm.trans hu
    · refine hnot fun hw => ?_
      obtain ⟨u, hu⟩ := hg.inv.lock.spin.set_iff.mp hw
      exact hu (hidle u).roles.1
    · refine hnot fun hw => ?_
      rcases ht.waiting hw with ⟨x, hx⟩ | ⟨u, hu⟩
      · exact hwaits x hx
      · exact hregion u hu
    · refine hnot fun hw => ?_
      rcases hg.inv.queue.desig hw with ⟨u, hu⟩ | ⟨x, hx⟩
      · exact hregion u hu
      · exact hdeq x ((hg.inv.place.deq x).mp hx)
    · exact ht.cond
    · refine hnot fun hw => ?_
      obtain ⟨x, -, hx | hx⟩ := ht.writer hw
      · exact hwaits x hx
      · exact hdeq x hx
    · refine hnot fun hw => ?_
      obtain ⟨x, hx⟩ := ht.long hw
      rcases Tended.around_of_long hg.inv hx with hx | hx
      · exact hwaits x hx
      · exact hdeq x hx
    · exact ht.allFalse
    · refine Nat.eq_zero_of_not_pos fun hn => ?_
      obtain ⟨u, hu⟩ := hsh.read.exists_of_pos hn
      exact nomatch (hfree u).symm.trans hu

instance (a : Act σ) : Decidable a.NoMuWait :=
  match a with
  | .call (.muWait _ _) => inferInstanceAs (Decidable False)
  | .call (.lock _) | .call (.tryLock _) | .call (.unlock _) | .call (.debug _ _)
  | .call (.cvWait _ _) | .call (.signal _ _) | .call (.setProt _) | .step _ | .post =>
      inferInstanceAs (Decidable True)

instance (t : T) (a : Act σ) (s : State T σ) : Decidable (Unconditional t a s) :=
  inferInstanceAs (Decidable (_ ∧ _))

/-- A writer has waited for another one and both are done, and then one of them
waits on a condition variable. -/
def handoverRun : List (Fin 2 × Act Bool) :=
  [(0, .call (.lock .writer))] ++ goOn 0 1 ++ [(1, .call (.lock .writer))] ++ goOn 1 8 ++
  [(0, .call (.unlock .unlock))] ++ goOn 0 12 ++ goOn 1 4 ++
  [(1, .call (.cvWait 1 false))] ++ goOn 1 8

theorem no_stranded_waiter_handoverRun : ∃ s : State (Fin 2) Bool,
    Reachable flagEnv Unconditional false s ∧ (s.pc 1).sleeping = true ∧
    s.waiters = [] ∧ s.word = 0#32 := by
  obtain ⟨s, hs, hf⟩ := Reachable.exists_of_exec (E := flagEnv) (P := Unconditional) (x := false)
    handoverRun (fun s => decide (s.pc 0 = .client none) && (s.pc 1).sleeping &&
      (s.wtr 1).waiting && decide ((s.wtr 1).sem = 0) &&
      decide ((s.pc 1).lockRole = none)) (by decide +kernel)
  simp only [Bool.and_eq_true, decide_eq_true_eq] at hf
  obtain ⟨⟨⟨⟨h0, hsl⟩, hw⟩, hsem⟩, hl⟩ := hf
  have hfree : ∀ u, (s.pc u).lockRole = none := by
    intro u
    fin_cases u
    · exact congrArg Pc.lockRole h0
    · exact hl
  have hidle : ∀ u, Idle s u := by
    intro u
    fin_cases u
    · exact Or.inl ⟨none, h0⟩
    · exact Or.inr ⟨hsl, hw, hsem⟩
  exact ⟨s, hs, hsl, no_stranded_waiter hs hfree hidle⟩

end

end Nsync.Mu
