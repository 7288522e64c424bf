import Nsync.Mu.PlaceInv

/-!
# The summary bits of the word

`MU_WAITING` and `MU_CONDITION` never understate the queue, `MU_DESIG_WAKER`
is set only while somebody is on the way to take the mutex, and a thread before
the last CAS of `nsync_mu_unlock_slow_` knows what it is going to publish.
-/

namespace Nsync.Mu

open Nsync.Lib

variable {T σ : Type} [DecidableEq T] {E : Env σ} {C : WaitCondition → Prop} {t u x : T}
  {a a' : AState T σ}

/-! ## What a step leaves alone -/

/-- The condition and the mode of a listed waiter are fixed. -/
theorem AStep.wtr_frame (hs : AStep E C t a a') (hx : ¬ (a.loc x).Free) :
    (a'.wtr x).cond = (a.wtr x).cond ∧ (a'.wtr x).lType = (a.wtr x).lType := by
  cases hs with
  | own p tr lw w hc hmine hnew hcond htype hC htr hlw hphase hins =>
      by_cases hxt : x = t
      · subst hxt
        have hnone : a.loc x ≠ .none := fun h => hx (Or.inl h)
        simp only [AState.setTh, AState.setWtr, Function.update_self]
        exact ⟨hcond.resolve_left hx, htype.resolve_left hnone⟩
      · simp [hxt]
  | insert | removeSelf | cvRemove =>
      by_cases hxt : x = t
      · subst hxt
        simp [Waiter.setWaiting, Waiter.removed]
      · simp [hxt]
  | dequeue y | wake y | select _ y | cvWake y =>
      by_cases hxy : x = y
      · subst hxy
        simp [Waiter.setWaiting, Waiter.removed]
      · simp [hxy]
  | transfer xs =>
      by_cases hxx : x ∈ xs <;> simp [hxx]
  | grab m testing _ _ _ _ _ _ hp => cases hp <;> exact ⟨rfl, rfl⟩
  | retake _ _ _ hp => cases hp <;> exact ⟨rfl, rfl⟩
  | next hp => cases hp <;> exact ⟨rfl, rfl⟩
  | _ => exact ⟨rfl, rfl⟩

/-- The protected state changes only by a write holder. -/
theorem AStep.prot_cases (hs : AStep E C t a a') :
    a'.prot = a.prot ∨ ((a.th t).lock = some .writer ∧ (a.th t).spin = .no ∧
      (a.th t).region = false ∧ a'.v = a.v) := by
  cases hs with
  | mutate y hl hsp hr => exact Or.inr ⟨hl, hsp, hr, rfl⟩
  | grab m testing _ _ _ _ _ _ hp => cases hp <;> exact Or.inl rfl
  | retake _ _ _ hp => cases hp <;> exact Or.inl rfl
  | next hp => cases hp <;> exact Or.inl rfl
  | _ => exact Or.inl rfl

omit [DecidableEq T] in
theorem FinOk.frame {r : Release T} (h : FinOk E C a u r)
    (hlock : (a'.th u).lock = (a.th u).lock) (hq : ∀ x, a'.loc x = .muQ ↔ a.loc x = .muQ)
    (hwake : ∀ x, a'.loc x = .wake u ↔ a.loc x = .wake u)
    (hw : ∀ x, a.loc x = .muQ →
      (a'.wtr x).cond = (a.wtr x).cond ∧ (a'.wtr x).lType = (a.wtr x).lType)
    (hprot : r.late = true → a'.prot = a.prot) : FinOk E C a' u r where
  lock := by rw [hlock, h.lock]
  writer hr := by
    obtain ⟨x, hx, hm⟩ := h.writer hr
    exact ⟨x, (hq x).mpr hx, by rw [(hw x hx).2, hm]⟩
  noneLeft := by
    rw [h.noneLeft]
    exact forall_congr' fun x => not_congr (hq x).symm
  allFalse hr x hx := by
    rw [hq] at hx
    obtain ⟨c, hc, hfalse⟩ := h.allFalse hr x hx
    refine ⟨c, by rw [(hw x hx).1, hc], ?_⟩
    cases hl : r.late with
    | true => rwa [hprot hl]
    | false =>
        have := h.noCond hl x hx
        rw [hc] at this
        cases this
  noCond hr x hx := by
    rw [hq] at hx
    rw [(hw x hx).1, h.noCond hr x hx]
  wake := by
    rw [h.wake]
    exact forall_congr' fun x => not_congr (hwake x).symm
  woke := h.woke

/-! ## How the summary bits change -/

omit [DecidableEq T] in
/-- A timed out waiter restores all of the word but `MU_WRITER_WAITING`. -/
theorem LockInv.view_hold [Fintype T] (h : LockInv a) {old : Word}
    (hu : (a.th u).spin = .hold old) :
    ∃ b, view old = { a.v with wlock := false, spin := false, writerWaiting := b } := by
  obtain ⟨hv, hw, hn, hs⟩ := h.hold u old hu
  refine ⟨(view old).writerWaiting, ?_⟩
  rw [hv]
  ext1 <;> simp [View.tryAcquire, hw, hs]

omit [DecidableEq T] in
theorem LockInv.view_dbg [Fintype T] (h : LockInv a) {w : Word}
    (hu : (a.th u).spin = .dbg w) : view w = { a.v with spin := false } := by
  obtain ⟨hv, hs⟩ := h.dbg u w hu
  rw [hv]
  ext1 <;> simp [View.takeSpin, hs]

section

variable [Fintype T]

/-- `MU_WAITING` and `MU_CONDITION` are cleared only when no waiter is left. -/
theorem AStep.summary_mono (hs : AStep E C t a a') (hl : LockInv a) :
    ((a.v.waiting = true → a'.v.waiting = true) ∧ (a.v.cond = true → a'.v.cond = true)) ∨
      ∃ r, (a.th t).spin = .fin r ∧ r.noneLeft = true ∧ a'.loc = a.loc ∧
        (∀ u, (a'.th u).spin = .ins → (a.th u).spin = .ins) := by
  cases hs with
  | final r hsp =>
      cases hn : r.noneLeft with
      | true =>
          refine Or.inr ⟨r, hsp, hn, rfl, fun u hu => ?_⟩
          by_cases hut : u = t
          · subst hut
            simp at hu
          · simpa [hut] using hu
      | false =>
          left
          simp [View.final]
  | grab m testing _ _ _ _ _ _ hp =>
      left
      rw [hp.v_eq]
      cases testing <;> cases m <;> exact ⟨id, id⟩
  | retake _ _ _ hp =>
      left
      rw [hp.v_eq]
      exact ⟨id, id⟩
  | next hp =>
      left
      rw [hp.v_eq]
      exact ⟨id, id⟩
  | tryDone m old hsp =>
      left
      obtain ⟨b, hb⟩ := hl.view_hold hsp
      simp only [AState.setTh, AState.gain, AState.setV, AState.setDeq, hb]
      cases m <;> exact ⟨id, id⟩
  | tryFail old hsp =>
      left
      obtain ⟨b, hb⟩ := hl.view_hold hsp
      simp only [AState.setTh, AState.setV, hb]
      exact ⟨id, id⟩
  | dbgStore w hsp =>
      left
      simp only [AState.setTh, AState.setV, hl.view_dbg hsp]
      exact ⟨id, id⟩
  | acquire m | release m | muRelease m => left; cases m <;> exact ⟨id, id⟩
  | enqueue | transfer => exact Or.inl ⟨fun _ => rfl, id⟩
  | muEnqueue =>
      left
      simp +contextual [View.muWaitEnqueue]
  | _ => exact Or.inl ⟨id, id⟩

/-- Only the last CAS of `nsync_mu_unlock_slow_` sets `MU_ALL_FALSE`. -/
theorem AStep.allFalse_mono (hs : AStep E C t a a') (hl : LockInv a)
    (hf : a'.v.allFalse = true) :
    a.v.allFalse = true ∨ ∃ r, (a.th t).spin = .fin r ∧ r.setAllFalse = true := by
  cases hs with
  | final r hsp =>
      right
      simp only [AState.setTh, AState.setV, View.final, Bool.and_eq_true] at hf
      exact ⟨r, hsp, hf.1⟩
  | grab m testing _ _ _ _ _ _ hp =>
      left
      rw [hp.v_eq] at hf
      cases testing <;> cases m <;> exact hf
  | retake _ _ _ hp =>
      left
      rw [hp.v_eq] at hf
      exact hf
  | next hp =>
      left
      rw [hp.v_eq] at hf
      exact hf
  | tryDone m old hsp =>
      left
      obtain ⟨b, hb⟩ := hl.view_hold hsp
      simp only [AState.setTh, AState.gain, AState.setV, AState.setDeq, hb] at hf
      cases m <;> exact hf
  | tryFail old hsp =>
      left
      obtain ⟨b, hb⟩ := hl.view_hold hsp
      simp only [AState.setTh, AState.setV, hb] at hf
      exact hf
  | dbgStore w hsp =>
      left
      simp only [AState.setTh, AState.setV, hl.view_dbg hsp] at hf
      exact hf
  | acquire m | muRelease m => left; cases m <;> exact hf
  | release m =>
      left
      cases m <;> simp_all [View.releaseShare, View.dropShare]
  | enqueue | transfer | muEnqueue => cases hf
  | _ => exact Or.inl hf

/-- Only a thread that enters `nsync_mu_unlock_slow_` sets `MU_DESIG_WAKER`. -/
theorem AStep.desig_mono (hs : AStep E C t a a') (hl : LockInv a) (hf : a'.v.desig = true) :
    a.v.desig = true ∨ (a'.th t).region = true := by
  cases hs with
  | final r hsp =>
      left
      simp only [AState.setTh, AState.setV, View.final, Bool.and_eq_true] at hf
      cases hr : r.late <;> simp_all
  | grab m testing _ _ _ _ _ _ hp =>
      right
      cases hp <;> simp
  | retake _ _ _ hp =>
      left
      rw [hp.v_eq] at hf
      exact hf
  | next hp =>
      left
      rw [hp.v_eq] at hf
      exact hf
  | tryDone m old hsp =>
      left
      obtain ⟨b, hb⟩ := hl.view_hold hsp
      simp only [AState.setTh, AState.gain, AState.setV, AState.setDeq, hb] at hf
      cases m <;> exact hf
  | tryFail old hsp =>
      left
      obtain ⟨b, hb⟩ := hl.view_hold hsp
      simp only [AState.setTh, AState.setV, hb] at hf
      exact hf
  | dbgStore w hsp =>
      left
      simp only [AState.setTh, AState.setV, hl.view_dbg hsp] at hf
      exact hf
  | release m | muRelease m => left; cases m <;> exact hf
  | acquire m | enqueue =>
      left
      simp_all [View.acquire, View.enqueue]
  | _ => exact Or.inl hf

end

omit [DecidableEq T] in
/-- Whoever is queued by a step sets `MU_WAITING`, and `MU_CONDITION` if it has a
condition. -/
theorem Move.queued (hm : Move t a a' x) (hx : (a'.loc x).Queued) :
    (a.loc x).Queued ∨ ((a.th x).spin = .ins ∧ (a'.wtr x).cond = none) ∨
      (a'.v.waiting = true ∧ ((a'.wtr x).cond ≠ none → a'.v.cond = true)) := by
  cases hm with
  | stay h' => exact Or.inl (h' ▸ hx)
  | pick h h' hs => exact Or.inl (Or.inl h)
  | giveBack h h' hs => exact Or.inl (Or.inr ⟨t, h⟩)
  | insert hxt h h' hs hc => exact Or.inr (Or.inl ⟨hxt ▸ hs, hc⟩)
  | muJoin hxt h h' hs hv =>
      refine Or.inr (Or.inr ?_)
      rw [hv]
      refine ⟨rfl, fun hc => ?_⟩
      simp [View.muWaitEnqueue, Option.isSome_iff_ne_none.mpr hc]
  | transfer h h' hs hc hv =>
      refine Or.inr (Or.inr ?_)
      rw [hv]
      exact ⟨rfl, fun hc' => (hc' hc).elim⟩
  | _ => simp_all [Loc.Queued]

/-! ## The invariant -/

/-- The spinlock is held for a change of the queue that cleared `MU_ALL_FALSE`. -/
def Abs.Enqueuing (b : Abs T) : Prop :=
  b.spin = .ins ∨ (∃ c, b.spin = .xfer c) ∨ (b.spin = .plain ∧ b.region = false)

structure QueueInv (E : Env σ) (C : WaitCondition → Prop) (a : AState T σ) : Prop where
  region : ∀ u v, (a.th u).region = true → (a.th v).region = true → u = v
  waiting : ∀ x, (a.loc x).Queued ∨ (a.th x).spin = .ins → a.v.waiting = true
  cond : ∀ x, (a.loc x).Queued → (a.wtr x).cond ≠ none → a.v.cond = true
  desig : a.v.desig = true → (∃ u, (a.th u).region = true) ∨ ∃ x, a.deq x = true
  fin : ∀ u r, (a.th u).spin = .fin r → FinOk E C a u r
  xfer : ∀ u, (a.th u).spin = .xfer true → ∃ x, a.loc x = .muQ ∧ (a.wtr x).lType = .writer
  allFalse : ∀ u, (a.th u).Enqueuing → a.v.allFalse = false

namespace QueueInv

variable [Fintype T]

theorem step_region (h : QueueInv E C a) (hl : LockInv a) (hs : AStep E C t a a') (u w : T)
    (hu : (a'.th u).region = true) (hw : (a'.th w).region = true) : u = w := by
  -- a region is entered only while no other thread is in one
  have key : ∀ u, (a'.th u).region = true → (a.th u).region = true ∨
      (u = t ∧ ∀ w, (a.th w).region = false) := by
    intro u hu
    by_cases hut : u = t
    · subst hut
      cases hs with
      | grab m testing hlk hsp hr hspin hv ht hp =>
          refine Or.inr ⟨rfl, fun w => ?_⟩
          by_contra hn
          rw [Bool.not_eq_false] at hn
          rcases (hl.wf w).region hn with hw | hw
          · exact hw (hl.no_spin hspin w)
          · have := hl.shares.eq_of_writer hw hlk
            subst this
            simp [hr] at hn
      | retake hsp hr => exact Or.inl hr
      | next hp => cases hp <;> exact Or.inl ‹_›
      | final => simp at hu
      | _ => first | exact Or.inl hu | (left; simpa using hu)
    · rw [hs.th_of_ne hut] at hu
      exact Or.inl hu
  rcases key u hu with hu | ⟨rfl, hu⟩ <;> rcases key w hw with hw | ⟨rfl, hw⟩
  · exact h.region u w hu hw
  · simp [hw u] at hu
  · simp [hu w] at hw
  · rfl

omit [DecidableEq T] in
/-- Nothing is queued when a thread is about to clear `MU_WAITING`. -/
theorem not_queued (h : QueueInv E C a) (hl : LockInv a) (hp : PlaceInv C a) {r : Release T}
    (hs : (a.th t).spin = .fin r) (hn : r.noneLeft = true) : ¬ (a.loc x).Queued := by
  rintro (hx | ⟨u, hx⟩)
  · exact ((h.fin t r hs).noneLeft.mp hn) x hx
  · obtain ⟨hr, hf⟩ := hp.priv x u hx
    have hut := h.region u t hr ((hl.wf t).fin r hs).1
    subst hut
    exact hf r hs

end QueueInv

theorem AStep.ins_cases (hs : AStep E C t a a') (hx : (a'.th x).spin = .ins) :
    (a.th x).spin = .ins ∨ a'.v.waiting = true := by
  by_cases hxt : x = t
  · subst hxt
    cases hs with
    | enqueue => exact Or.inr rfl
    | grab _ _ _ _ _ _ _ _ hp | retake _ _ _ hp | next hp =>
        obtain ⟨-, h | ⟨r, h⟩⟩ := hp.spin_cases <;> simp [h] at hx
    | stutter | dequeue | wake | setWriterWaiting | select | cvWake | mutate => exact Or.inl hx
    | _ => left; simp_all
  · rw [hs.th_of_ne hxt] at hx
    exact Or.inl hx

theorem Pick.finOk {r : Release T} (hp : Pick E C t a a') (hr : (a'.th t).spin = .fin r) :
    FinOk E C a' t r := by
  cases hp with
  | pick hreg hs => simp [hs] at hr
  | giveBack r' hreg hs hq hf =>
      simp only [AState.setTh, Function.update_self, SpinRole.fin.injEq] at hr
      subst hr
      exact hf.frame (by simp) (fun _ => Iff.rfl) (fun _ => Iff.rfl) (fun _ _ => ⟨rfl, rfl⟩)
        fun _ => rfl

theorem AStep.fin_self {r : Release T} (hs : AStep E C t a a') (hr : (a'.th t).spin = .fin r) :
    FinOk E C a' t r ∨ ((a.th t).spin = .fin r ∧ (a'.th t).lock = (a.th t).lock) := by
  cases hs with
  | grab _ _ _ _ _ _ _ _ hp | retake _ _ _ hp | next hp => exact Or.inl (hp.finOk hr)
  | stutter | dequeue | wake | setWriterWaiting | select | cvWake | mutate =>
      exact Or.inr ⟨hr, rfl⟩
  | _ => right; simp_all

theorem AStep.xfer_self (hs : AStep E C t a a') (hr : (a'.th t).spin = .xfer true) :
    (∃ x, a'.loc x = .muQ ∧ (a'.wtr x).lType = .writer) ∨ (a.th t).spin = .xfer true := by
  cases hs with
  | transfer xs b hsp hreg hspin hheld hxs hb =>
      simp only [AState.setTh, Function.update_self, SpinRole.xfer.injEq] at hr
      obtain ⟨x, hx, hm⟩ := hb hr
      exact Or.inl ⟨x, by simp [hx], by simpa [hx] using hm⟩
  | grab _ _ _ _ _ _ _ _ hp | retake _ _ _ hp | next hp =>
      obtain ⟨-, h | ⟨r, h⟩⟩ := hp.spin_cases <;> simp [h] at hr
  | stutter | dequeue | wake | setWriterWaiting | select | cvWake | mutate => exact Or.inr hr
  | _ => right; simp_all

theorem Pick.region_eq (hp : Pick E C t a a') :
    (a.th t).region = true ∧ (a'.th t).region = true := by
  cases hp with
  | pick hr hs => exact ⟨hr, hr⟩
  | giveBack r hr hs hq hf => exact ⟨hr, by simpa using hr⟩

theorem AStep.enqueuing_self (hs : AStep E C t a a') (hr : (a'.th t).Enqueuing) :
    (a.th t).Enqueuing ∨ a'.v.allFalse = false := by
  cases hs with
  | enqueue | muEnqueue | transfer => exact Or.inr rfl
  | insert hsp => exact Or.inl (Or.inl hsp)
  | grab _ _ _ _ _ _ _ _ hp | retake _ _ _ hp | next hp =>
      have hreg := hp.region_eq.2
      obtain ⟨-, h | ⟨r, h⟩⟩ := hp.spin_cases <;> simp [Abs.Enqueuing, h, hreg] at hr
  | stutter | dequeue | wake | setWriterWaiting | select | cvWake | mutate => exact Or.inl hr
  | _ => left; simp_all [Abs.Enqueuing]

omit [DecidableEq T] in
theorem Abs.Enqueuing.spin_ne {b : Abs T} (h : b.Enqueuing) :
    b.spin ≠ .no ∧ ∀ r, b.spin ≠ .fin r := by
  rcases h with h | ⟨c, h⟩ | ⟨h, -⟩ <;> simp [h]

/-- The thread that holds the spinlock for the last CAS or for a transfer moves
no waiter of the mutex queue. -/
theorem AStep.loc_muQ_self [Fintype T] (hs : AStep E C t a a') (hl : LockInv a)
    (hp : PlaceInv C a) (ht : (∃ r, (a.th t).spin = .fin r) ∨ ∃ b, (a.th t).spin = .xfer b) :
    a'.loc x = .muQ ↔ a.loc x = .muQ := by
  have hset : a.v.spin = true := by
    refine hl.spin.set_of (t := t) ?_
    rcases ht with ⟨r, h⟩ | ⟨b, h⟩ <;> simp [h]
  have hne : (a.th t).spin ≠ .ins ∧ (a.th t).spin ≠ .plain ∧ ∀ old, (a.th t).spin ≠ .hold old := by
    rcases ht with ⟨r, h⟩ | ⟨b, h⟩ <;> simp [h]
  cases hs.move hp x with
  | stay h' => rw [h']
  | removeSelf hx h h' hph =>
      obtain ⟨old, ho⟩ := (hl.wf t).mine hph
      exact (hne.2.2 old ho).elim
  | leave hx h h' => rcases h with h | h <;> simp [h, h']
  | _ => simp_all

namespace QueueInv

variable [Fintype T]

theorem step_waiting (h : QueueInv E C a) (hl : LockInv a) (hp : PlaceInv C a)
    (hs : AStep E C t a a') (x : T) (hx : (a'.loc x).Queued ∨ (a'.th x).spin = .ins) :
    a'.v.waiting = true := by
  -- either `x` was queued before, or the step itself sets the bit
  have hbefore : ((a.loc x).Queued ∨ (a.th x).spin = .ins) ∨ a'.v.waiting = true := by
    rcases hx with hx | hx
    · rcases (hs.move hp x).queued hx with hq | ⟨hi, -⟩ | ⟨hw, -⟩
      · exact Or.inl (Or.inl hq)
      · exact Or.inl (Or.inr hi)
      · exact Or.inr hw
    · exact (hs.ins_cases hx).imp Or.inr id
  rcases hbefore with hb | hw
  · rcases hs.summary_mono hl with ⟨hm, -⟩ | ⟨r, hr, hn, hloc, hins⟩
    · exact hm (h.waiting x hb)
    · rcases hx with hx | hx
      · rw [hloc] at hx
        exact (h.not_queued hl hp hr hn hx).elim
      · have hxi := hins x hx
        have hxt : x ≠ t := by
          rintro rfl
          simp [hr] at hxi
        rw [hl.no_spin_of (t := t) (by simp [hr]) hxt] at hxi
        cases hxi
  · exact hw

theorem step_cond (h : QueueInv E C a) (hl : LockInv a) (hp : PlaceInv C a)
    (hs : AStep E C t a a') (x : T) (hx : (a'.loc x).Queued) (hc : (a'.wtr x).cond ≠ none) :
    a'.v.cond = true := by
  rcases (hs.move hp x).queued hx with hq | ⟨-, hn⟩ | ⟨-, hw⟩
  · have hfree : ¬ (a.loc x).Free := by
      rcases hq with hq | ⟨u, hq⟩ <;> simp [hq, Loc.Free]
    rw [(hs.wtr_frame hfree).1] at hc
    rcases hs.summary_mono hl with ⟨-, hm⟩ | ⟨r, hr, hn, hloc, -⟩
    · exact hm (h.cond x hq hc)
    · exact (h.not_queued hl hp hr hn hq).elim
  · exact (hc hn).elim
  · exact hw hc

theorem step_fin (h : QueueInv E C a) (hl : LockInv a) (hp : PlaceInv C a)
    (hs : AStep E C t a a') (u : T) (r : Release T) (hr : (a'.th u).spin = .fin r) :
    FinOk E C a' u r := by
  have hw : ∀ x, a.loc x = .muQ →
      (a'.wtr x).cond = (a.wtr x).cond ∧ (a'.wtr x).lType = (a.wtr x).lType := by
    intro x hx
    exact hs.wtr_frame (by simp [hx, Loc.Free])
  by_cases hut : u = t
  · subst hut
    rcases hs.fin_self hr with hf | ⟨hr', hlock⟩
    · exact hf
    · refine (h.fin u r hr').frame hlock (fun x => hs.loc_muQ_self hl hp (Or.inl ⟨r, hr'⟩)) ?_ hw ?_
      · intro x
        cases hs.move hp x with
        | stay h' => rw [h']
        | dequeue h h' => exact ((hp.priv x u h).2 r hr').elim
        | leave hx h h' => rcases h with h | h <;> simp [h, h']
        | _ => simp_all
      · intro _
        rcases hs.prot_cases with hprot | ⟨-, hno, -⟩
        · exact hprot
        · simp [hr'] at hno
  · have hth := hs.th_of_ne hut
    rw [hth] at hr
    have hf := h.fin u r hr
    refine hf.frame (by rw [hth]) (fun x => hs.loc_muQ hl hp hut (by simp [hr]))
      (fun x => (hs.move hp x).wake_iff hut) hw fun hlate => ?_
    rcases hs.prot_cases with hprot | ⟨hlk, -⟩
    · exact hprot
    · have hlu := hf.lock
      rw [hlate, if_pos rfl] at hlu
      exact (hut (hl.shares.eq_of_writer hlk hlu)).elim

theorem step_xfer (h : QueueInv E C a) (hl : LockInv a) (hp : PlaceInv C a)
    (hs : AStep E C t a a') (u : T) (hu : (a'.th u).spin = .xfer true) :
    ∃ x, a'.loc x = .muQ ∧ (a'.wtr x).lType = .writer := by
  have key : ∀ x, a.loc x = .muQ → (a.wtr x).lType = .writer → (a'.wtr x).lType = .writer := by
    intro x hx hm
    rw [(hs.wtr_frame (by simp [hx, Loc.Free])).2, hm]
  by_cases hut : u = t
  · subst hut
    rcases hs.xfer_self hu with hx | hu'
    · exact hx
    · obtain ⟨x, hx, hm⟩ := h.xfer u hu'
      exact ⟨x, (hs.loc_muQ_self hl hp (Or.inr ⟨true, hu'⟩)).mpr hx, key x hx hm⟩
  · rw [hs.th_of_ne hut] at hu
    obtain ⟨x, hx, hm⟩ := h.xfer u hu
    exact ⟨x, (hs.loc_muQ hl hp hut (by simp [hu])).mpr hx, key x hx hm⟩

theorem step_allFalse (h : QueueInv E C a) (hl : LockInv a) (hs : AStep E C t a a') (u : T)
    (hu : (a'.th u).Enqueuing) : a'.v.allFalse = false := by
  by_contra hf
  rw [Bool.not_eq_false] at hf
  have hmono := hs.allFalse_mono hl hf
  by_cases hut : u = t
  · subst hut
    rcases hs.enqueuing_self hu with he | he
    · rcases hmono with hm | ⟨r, hr, -⟩
      · simp [h.allFalse u he] at hm
      · exact he.spin_ne.2 r hr
    · simp [he] at hf
  · rw [hs.th_of_ne hut] at hu
    rcases hmono with hm | ⟨r, hr, -⟩
    · simp [h.allFalse u hu] at hm
    · exact hu.spin_ne.1 (hl.no_spin_of (t := t) (by simp [hr]) hut)

end QueueInv

/-- A thread leaves the wake-up scan only by its last CAS. -/
theorem AStep.region_lost (hs : AStep E C t a a') (hr : (a.th t).region = true)
    (hr' : (a'.th t).region = false) :
    ∃ r, (a.th t).spin = .fin r ∧ a'.loc = a.loc ∧ a'.deq = a.deq ∧
      (a'.v.desig = true → r.wake ≠ []) := by
  cases hs with
  | final r hsp =>
      refine ⟨r, hsp, rfl, rfl, fun hd => ?_⟩
      simp only [AState.setTh, AState.setV, View.final, Bool.and_eq_true] at hd
      simpa using hd.2
  | grab _ _ _ _ _ _ _ _ hp | retake _ _ _ hp | next hp => simp [hp.region_eq.2] at hr'
  | stutter | dequeue | wake | setWriterWaiting | select | cvWake | mutate => simp [hr] at hr'
  | _ => simp_all

/-- A dequeued thread that acquires or queues itself anew clears
`MU_DESIG_WAKER`. -/
theorem AStep.deq_lost (hs : AStep E C t a a') (hp : PlaceInv C a) (hx : a.deq x = true)
    (hx' : a'.deq x = false) : a'.v.desig = false := by
  have hloc := (hp.deq x).mp hx
  have key : x = t → ∀ clear : Bool, (a.th t).phase = (if clear then .redo else .idle) →
      clear = true := by
    rintro rfl clear hph
    cases clear with
    | true => rfl
    | false =>
        rw [hp.loc_of_idle (by simpa using hph)] at hloc
        simp [Loc.Dequeued] at hloc
  have hxt : x = t := by
    by_contra hne
    cases hs with
    | grab _ _ _ _ _ _ _ _ hp' | retake _ _ _ hp' | next hp' => cases hp' <;> simp_all
    | dequeue y =>
        by_cases hxy : x = y <;> simp_all
    | _ => simp_all
  have hct := hp.compat t
  cases hs with
  | acquire m clear hlk hsp hph hv htype =>
      simp [View.acquire, key hxt clear hph]
  | enqueue m clear hlk hsp hph hv hspin htype =>
      simp [View.enqueue, key hxt clear hph]
  | muEnqueue rc hph =>
      rw [hph] at hct
      simp [hxt, hct.1, Loc.Dequeued] at hloc
  | tryDone m old hsp hph =>
      rw [hph] at hct
      simp [hxt, hct.1, Loc.Dequeued] at hloc
  | grab _ _ _ _ _ _ _ _ hp' | retake _ _ _ hp' | next hp' => cases hp' <;> simp_all
  | dequeue y =>
      by_cases hxy : x = y <;> simp_all
  | _ => simp_all

namespace QueueInv

variable [Fintype T]

theorem step_desig (h : QueueInv E C a) (hl : LockInv a) (hp : PlaceInv C a)
    (hs : AStep E C t a a') (hd : a'.v.desig = true) :
    (∃ u, (a'.th u).region = true) ∨ ∃ x, a'.deq x = true := by
  rcases hs.desig_mono hl hd with hd' | hr
  · rcases h.desig hd' with ⟨u, hu⟩ | ⟨x, hx⟩
    · cases hu' : (a'.th u).region with
      | true => exact Or.inl ⟨u, hu'⟩
      | false =>
          have hut : u = t := by
            by_contra hne
            rw [hs.th_of_ne hne, hu] at hu'
            cases hu'
          subst hut
          obtain ⟨r, hr, hloc, hdeq, hw⟩ := hs.region_lost hu hu'
          have hwake := mt (h.fin u r hr).wake.mpr (hw hd)
          push Not at hwake
          obtain ⟨x, hx⟩ := hwake
          exact Or.inr ⟨x, by rw [hdeq, hp.deq, hx]; exact Or.inl ⟨u, rfl⟩⟩
    · cases hx' : a'.deq x with
      | true => exact Or.inr ⟨x, hx'⟩
      | false =>
          rw [hs.deq_lost hp hx hx'] at hd
          cases hd
  · exact Or.inl ⟨t, hr⟩

theorem step (h : QueueInv E C a) (hl : LockInv a) (hp : PlaceInv C a) (hs : AStep E C t a a') :
    QueueInv E C a' where
  region := h.step_region hl hs
  waiting := h.step_waiting hl hp hs
  cond := h.step_cond hl hp hs
  desig := h.step_desig hl hp hs
  fin := h.step_fin hl hp hs
  xfer := h.step_xfer hl hp hs
  allFalse := h.step_allFalse hl hs

end QueueInv

/-! ## All together -/

/-- The invariant of the protocol. -/
structure AInv [Fintype T] (E : Env σ) (C : WaitCondition → Prop) (a : AState T σ) : Prop where
  lock : LockInv a
  place : PlaceInv C a
  cv : CvInv a
  queue : QueueInv E C a

theorem AInv.step [Fintype T] (h : AInv E C a) (hs : AStep E C t a a') (hq : QuietStep t a a') :
    AInv E C a' where
  lock := h.lock.step hs hq
  place := h.place.step h.lock h.cv hs
  cv := h.cv.step hs
  queue := h.queue.step h.lock h.place hs

end Nsync.Mu
