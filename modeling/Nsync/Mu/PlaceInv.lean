import Nsync.Mu.LockInv

/-!
# Where the waiters are

Every waiter struct is in at most one place, the place fits what its thread is
doing, and only the thread that may move it does.
-/

namespace Nsync.Mu

open Nsync.Lib

variable {T σ : Type}

namespace Compat

variable {w : Waiter} {p : Phase} {t : T} {c : Addr}

/-! Moves of a waiter by other threads. -/

theorem pick (h : Compat (.muQ : Loc T) w p) (hp : p ≠ .muMine) : Compat (.priv t) w p := by
  cases p <;> simp_all [Compat, Loc.Queued]

theorem giveBack (h : Compat (.priv t) w p) : Compat (.muQ : Loc T) w p := by
  cases p <;> simp_all [Compat, Loc.Queued]

theorem dequeue (h : Compat (.priv t) w p) : Compat (.wake t) w.removed p := by
  cases p <;> simp_all [Compat, Loc.Queued, Waiter.removed]

theorem wake (h : Compat (.wake t) w p) : Compat (.woken : Loc T) (w.setWaiting false) p := by
  cases p <;> simp_all [Compat, Loc.Queued, Waiter.setWaiting]

theorem select (h : Compat (.cvQ c : Loc T) w p) (hp : ∀ d, p ≠ .cvNew d ∧ p ≠ .cvMine d) :
    Compat (.toWake t) w.removed p := by
  cases p <;> simp_all [Compat, Loc.Queued, Waiter.removed]

theorem move (h : Compat (.toWake t) w p) : Compat (.muQ : Loc T) { w with cvMu := false } p := by
  cases p <;> simp_all [Compat, Loc.Queued]

theorem cvWake (h : Compat (.toWake t) w p) : Compat (.none : Loc T) (w.setWaiting false) p := by
  cases p <;> simp_all [Compat, Loc.Queued, Waiter.setWaiting]

end Compat

/-! ## Condition variables -/

/-- Who holds the spinlocks of the condition variables. -/
structure CvInv (a : AState T σ) : Prop where
  spin : ∀ c, Owned ((a.cvw c).getLsbD 0) fun u => (a.th u).cv.addr = some c
  dbg : ∀ u c w, (a.th u).cv = .dbg c w → a.cvw c = w ||| cvSpinlock ∧ w.getLsbD 0 = false

structure PlaceInv (C : WaitCondition → Prop) (a : AState T σ) : Prop where
  compat : ∀ u, Compat (a.loc u) (a.wtr u) (a.th u).phase
  priv : ∀ x u, a.loc x = .priv u → (a.th u).region = true ∧ ∀ r, (a.th u).spin ≠ .fin r
  deq : ∀ x, a.deq x = true ↔ (a.loc x).Dequeued
  conds : ∀ x c, (a.wtr x).cond = some c → C c

variable [DecidableEq T] {E : Env σ} {C : WaitCondition → Prop} {t u x : T} {a a' : AState T σ}

namespace PlaceInv

omit [DecidableEq T] in
theorem loc_of_idle (h : PlaceInv C a) (hp : (a.th u).phase = .idle) : a.loc u = .none := by
  have := h.compat u
  rwa [hp] at this

/-- A step that moves no waiter and changes no waiter but that of `t`. -/
theorem own (h : PlaceInv C a) (hs : AStep E C t a a') (hloc : a'.loc = a.loc)
    (hw : ∀ u, u ≠ t → a'.wtr u = a.wtr u) (hdeq : ∀ x, a'.deq x = true ↔ a.deq x = true)
    (hc : Compat (a.loc t) (a'.wtr t) (a'.th t).phase)
    (hpriv : ∀ x, a.loc x = .priv t → (a'.th t).region = true ∧ ∀ r, (a'.th t).spin ≠ .fin r)
    (hC : ∀ c, (a'.wtr t).cond = some c → C c) : PlaceInv C a' where
  compat u := by
    rw [hloc]
    by_cases hu : u = t
    · subst hu
      exact hc
    · rw [hs.th_of_ne hu, hw u hu]
      exact h.compat u
  priv x u hx := by
    rw [hloc] at hx
    by_cases hu : u = t
    · subst hu
      exact hpriv x hx
    · rw [hs.th_of_ne hu]
      exact h.priv x u hx
  deq x := by
    rw [hloc, hdeq]
    exact h.deq x
  conds x c hx := by
    by_cases hu : x = t
    · subst hu
      exact hC c hx
    · rw [hw x hu] at hx
      exact h.conds x c hx

/-- A step that moves one waiter `x`. -/
theorem moveOne (h : PlaceInv C a) (hs : AStep E C t a a') {l : Loc T}
    (hloc : a'.loc = Function.update a.loc x l) (hw : ∀ u, u ≠ x → a'.wtr u = a.wtr u)
    (hcx : Compat l (a'.wtr x) (a'.th x).phase)
    (hph : t ≠ x → (a'.th t).phase = (a.th t).phase)
    (hreg : (a'.th t).region = (a.th t).region)
    (hfin : ∀ r, (a'.th t).spin = .fin r → (a.th t).spin = .fin r)
    (hdeq : ∀ u, u ≠ x → a'.deq u = a.deq u) (hdx : a'.deq x = true ↔ l.Dequeued)
    (hl : ∀ u, l ≠ .priv u) (hC : (a'.wtr x).cond = (a.wtr x).cond) : PlaceInv C a' where
  compat u := by
    by_cases hux : u = x
    · subst hux
      simpa [hloc] using hcx
    · rw [hloc, Function.update_of_ne hux, hw u hux]
      by_cases hut : u = t
      · subst hut
        rw [hph hux]
        exact h.compat u
      · rw [hs.th_of_ne hut]
        exact h.compat u
  priv y u hy := by
    rw [hloc] at hy
    by_cases hyx : y = x
    · subst hyx
      exact (hl u (by simpa using hy)).elim
    · rw [Function.update_of_ne hyx] at hy
      have hp := h.priv y u hy
      by_cases hut : u = t
      · subst hut
        rw [hreg]
        exact ⟨hp.1, fun r hr => hp.2 r (hfin r hr)⟩
      · rw [hs.th_of_ne hut]
        exact hp
  deq y := by
    rw [hloc]
    by_cases hyx : y = x
    · subst hyx
      simpa using hdx
    · rw [Function.update_of_ne hyx, hdeq y hyx]
      exact h.deq y
  conds y c hy := by
    by_cases hyx : y = x
    · subst hyx
      exact h.conds y c (hC ▸ hy)
    · rw [hw y hyx] at hy
      exact h.conds y c hy

/-- Taking or returning the queue keeps the invariant. -/
theorem step_pick (h : PlaceInv C a) (hp : Pick E C t a a')
    (hmine : ∀ u, (a.th u).phase ≠ .muMine) : PlaceInv C a' := by
  cases hp with
  | pick hr hs =>
      refine ⟨fun u => ?_, fun x u hx => ?_, fun x => ?_, h.conds⟩
      · have hc := h.compat u
        by_cases hu : a.loc u = .muQ
        · rw [hu] at hc
          simpa [hu] using hc.pick (hmine u)
        · simpa [hu] using hc
      · by_cases hq : a.loc x = .muQ
        · have hut : t = u := by simpa [hq] using hx
          subst hut
          exact ⟨hr, fun r => by simp [hs]⟩
        · exact h.priv x u (by simpa [hq] using hx)
      · by_cases hq : a.loc x = .muQ
        · simp [h.deq, hq, Loc.Dequeued]
        · simp [h.deq, hq]
  | giveBack r hr hs hq hf =>
      have hne : ∀ x u, (a.giveBack t).loc x = .priv u → u ≠ t ∧ a.loc x = .priv u := by
        intro x u hx
        by_cases hpx : a.loc x = .priv t
        · simp [hpx] at hx
        · simp only [AState.giveBack, hpx, if_false] at hx
          refine ⟨?_, hx⟩
          rintro rfl
          exact hpx hx
      refine ⟨fun u => ?_, fun x u hx => ?_, fun x => ?_, h.conds⟩
      · have hphase : (((a.giveBack t).setTh t { a.th t with spin := .fin r }).th u).phase =
            (a.th u).phase := by
          by_cases hu : u = t
          · subst hu
            simp
          · simp [hu]
        rw [hphase]
        have hc := h.compat u
        by_cases hu : a.loc u = .priv t
        · rw [hu] at hc
          simpa [hu] using hc.giveBack
        · simpa [hu] using hc
      · obtain ⟨hu, hx'⟩ := hne x u hx
        simpa [hu] using h.priv x u hx'
      · by_cases hpx : a.loc x = .priv t
        · simp [h.deq, hpx, Loc.Dequeued]
        · simp [h.deq, hpx]

end PlaceInv

/-- Nobody removes itself from the queue while the spinlock is free or held for
another purpose. -/
theorem LockInv.no_mine [Fintype T] (h : LockInv a)
    (hs : a.v.spin = false ∨ (a.th t).spin = .plain) (u : T) : (a.th u).phase ≠ .muMine := by
  intro hu
  obtain ⟨old, hold⟩ := (h.wf u).mine hu
  rcases hs with hs | hs
  · exact h.hold_of_free hs hold
  · by_cases hut : u = t
    · subst hut
      rw [hs] at hold
      cases hold
    · exact h.hold_of_spin (t := t) (by simp [hs]) hut hold

namespace PlaceInv

variable [Fintype T]

theorem step (h : PlaceInv C a) (hl : LockInv a) (hcv : CvInv a) (hs : AStep E C t a a') :
    PlaceInv C a' := by
  have hct := h.compat t
  have hs' := hs
  cases hs' with
  | stutter => exact h
  | own p tr lw w hc hmine hnew hcond htype hC htr hlw hphase hins =>
      refine h.own hs rfl (fun u hu => by simp [hu]) (fun _ => Iff.rfl) (by simpa using hc)
        (fun x hx => by simpa using h.priv x t hx) (by simpa using hC)
  | acquire m clear hlk hsp hp hv htype =>
      exact h.moveOne hs rfl (fun _ _ => rfl) (by simp [Compat]) (by simp) (by simp) (by simp)
        (fun u hu => by simp [hu]) (by simp [Loc.Dequeued]) (by simp) rfl
  | enqueue m clear hlk hsp hp hv hspin htype =>
      exact h.moveOne hs rfl (fun _ _ => rfl) (by simp [Compat]) (by simp) (by simp) (by simp)
        (fun u hu => by simp [hu]) (by simp [Loc.Dequeued]) (by simp) rfl
  | insert hsp hp hcond =>
      have hloc := h.loc_of_idle hp
      refine h.moveOne hs rfl (fun u hu => by simp [hu])
        (by simp [Compat, Loc.Queued, Waiter.setWaiting]) (by simp) (by simp) (by simp)
        (fun _ _ => rfl) ?_ (by simp) (by simp [Waiter.setWaiting])
      simp [h.deq, hloc, Loc.Dequeued]
  | releaseSpin | release | tryAcquire | tryFail | transferRelease | dbgTake | dbgStore
  | muRelease | cvTake =>
      refine h.own hs rfl (fun _ _ => rfl) (fun _ => Iff.rfl) (by simpa using hct) ?_ (h.conds t)
      intro x hx
      have := h.priv x t hx
      simp_all
  | cvRelease c w hcv' hw hp =>
      refine h.own hs rfl (fun _ _ => rfl) (fun _ => Iff.rfl) (by simpa using hct) ?_ (h.conds t)
      intro x hx
      simpa using h.priv x t hx
  | setWriterWaiting =>
      exact h.own hs rfl (fun _ _ => rfl) (fun _ => Iff.rfl) hct (fun x hx => h.priv x t hx)
        (h.conds t)
  | mutate =>
      exact h.own hs rfl (fun _ _ => rfl) (fun _ => Iff.rfl) hct (fun x hx => h.priv x t hx)
        (h.conds t)
  | grab m testing hlk hsp hr hspin hv ht hp =>
      refine PlaceInv.step_pick ?_ hp ?_
      · refine ⟨fun u => ?_, fun x u hx => ?_, h.deq, h.conds⟩
        · by_cases hu : u = t
          · subst hu
            simpa using hct
          · simpa [hu] using h.compat u
        · by_cases hu : u = t
          · subst hu
            simp
          · simpa [hu] using h.priv x u hx
      · intro u
        have := hl.no_mine (t := t) (Or.inl hspin) u
        by_cases hu : u = t
        · subst hu
          simpa using this
        · simpa [hu] using this
  | retake hsp hr hspin hp =>
      refine PlaceInv.step_pick ?_ hp ?_
      · refine ⟨fun u => ?_, fun x u hx => ?_, h.deq, h.conds⟩
        · by_cases hu : u = t
          · subst hu
            simpa using hct
          · simpa [hu] using h.compat u
        · by_cases hu : u = t
          · subst hu
            simp [hr]
          · simpa [hu] using h.priv x u hx
      · intro u
        have := hl.no_mine (t := t) (Or.inl hspin) u
        by_cases hu : u = t
        · subst hu
          simpa using this
        · simpa [hu] using this
  | next hp => exact h.step_pick hp (hl.no_mine (Or.inr hp.spin_cases.1))
  | dequeue x hr hx =>
      have hc := h.compat x
      rw [hx] at hc
      exact h.moveOne hs rfl (fun u hu => by simp [hu]) (by simpa using hc.dequeue) (by simp)
        (by simp) (by simp) (fun u hu => by simp [hu]) (by simp [Loc.Dequeued]) (by simp)
        (by simp [Waiter.removed])
  | final r hsp =>
      refine h.own hs rfl (fun _ _ => rfl) (fun _ => Iff.rfl) (by simpa using hct) ?_ (h.conds t)
      intro x hx
      exact ((h.priv x t hx).2 r hsp).elim
  | wake x hsp hx =>
      have hc := h.compat x
      rw [hx] at hc
      refine h.moveOne hs rfl (fun u hu => by simp [hu]) (by simpa using hc.wake) (by simp)
        (by simp) (by simp) (fun _ _ => rfl) ?_ (by simp) (by simp [Waiter.setWaiting])
      simp [h.deq, hx, Loc.Dequeued]
  | muEnqueue rc hp hsp hr hspin =>
      rw [hp] at hct
      refine h.moveOne hs rfl (fun _ _ => rfl) ?_ (by simp) (by simp) (by simp)
        (fun u hu => by simp [hu]) (by simp [Loc.Dequeued]) (by simp) rfl
      simpa [Compat, Loc.Queued] using hct.2
  | removeSelf hp =>
      rw [hp] at hct
      refine h.moveOne hs rfl (fun u hu => by simp [hu]) ?_ (by simp) (by simp) (by simp)
        (fun _ _ => rfl) ?_ (by simp) (by simp [Waiter.removed])
      · simpa [Compat, Waiter.removed] using hct.2
      · simp [h.deq, hct.1, Loc.Dequeued]
  | tryDone m old hsp hp hr =>
      rw [hp] at hct
      refine h.own hs rfl (fun _ _ => rfl) ?_ (by simpa [hp] using hct) ?_ (h.conds t)
      · intro x
        by_cases hx : x = t
        · subst hx
          simp [h.deq, hct.1, Loc.Dequeued]
        · simp [hx]
      · intro x hx
        have := h.priv x t hx
        simp_all
  | cvEnqueue c w hp hcv' hfree hw =>
      rw [hp] at hct
      refine h.moveOne hs rfl (fun _ _ => rfl) ?_ (by simp) (by simp) (by simp) (fun _ _ => rfl) ?_
        (by simp) rfl
      · simpa [Compat] using hct.2
      · simp [h.deq, hct.1, Loc.Dequeued]
  | cvRemove c hp =>
      rw [hp] at hct
      refine h.moveOne hs rfl (fun u hu => by simp [hu]) ?_ (by simp) (by simp) (by simp)
        (fun _ _ => rfl) ?_ (by simp) (by simp [Waiter.removed])
      · simpa [Compat, Waiter.removed] using hct.2
      · simp [h.deq, hct.1, Loc.Dequeued]
  | select c x hcv' hx hp =>
      have hc := h.compat x
      rw [hx] at hc
      have hphase : ∀ d, (a.th x).phase ≠ .cvNew d ∧ (a.th x).phase ≠ .cvMine d := by
        intro d
        by_contra hd
        have hd' : (a.th x).phase = .cvNew d ∨ (a.th x).phase = .cvMine d := by
          by_contra hn
          push Not at hn
          exact hd hn
        have hdc : d = c := by
          rcases hd' with hd' | hd' <;> rw [hd'] at hc <;> simpa using hc.1.symm
        have haddr := (hl.wf x).cvMine d hd'
        rw [hdc] at haddr
        have hxt : x = t := (hcv.spin c).unique x t haddr (by simp [hcv'])
        subst hxt
        rcases hd' with hd' | hd'
        · exact (hp d).1 hd'
        · exact (hp d).2 hd'
      refine h.moveOne hs rfl (fun u hu => by simp [hu]) ?_ (by simp) (by simp) (by simp)
        (fun _ _ => rfl) ?_ (by simp) (by simp [Waiter.removed])
      · simpa using hc.select hphase
      · simp [h.deq, hx, Loc.Dequeued]
  | transfer xs b hsp hr hspin hheld hxs hb =>
      have hphase : ∀ u, ((((a.setV a.v.transfer).move xs).setTh t
          { a.th t with spin := .xfer b }).th u).phase = (a.th u).phase := by
        intro u
        by_cases hu : u = t
        · subst hu
          simp
        · simp [hu]
      refine ⟨fun u => ?_, fun x u hx => ?_, fun x => ?_, fun x c hx => ?_⟩
      · rw [hphase]
        have hc := h.compat u
        by_cases hu : u ∈ xs
        · rw [(hxs u hu).1] at hc
          simpa [hu] using hc.move
        · simpa [hu] using hc
      · have hx' : a.loc x = .priv u := by
          by_cases hxx : x ∈ xs
          · simp [hxx] at hx
          · simpa [hxx] using hx
        have := h.priv x u hx'
        by_cases hu : u = t
        · subst hu
          simp_all
        · simpa [hu] using this
      · by_cases hxx : x ∈ xs
        · simp [h.deq, hxx, (hxs x hxx).1, Loc.Dequeued]
        · simp [h.deq, hxx]
      · refine h.conds x c ?_
        by_cases hxx : x ∈ xs
        · simpa [hxx] using hx
        · simpa [hxx] using hx
  | cvWake x hx =>
      have hc := h.compat x
      rw [hx] at hc
      refine h.moveOne hs rfl (fun u hu => by simp [hu]) (by simpa using hc.cvWake) (by simp)
        (by simp) (by simp) (fun _ _ => rfl) ?_ (by simp) (by simp [Waiter.setWaiting])
      simp [h.deq, hx, Loc.Dequeued]

end PlaceInv

/-! ## Condition variables, continued -/

/-! ## Moves -/

/-- How a step of `t` from `a` to `a'` can move the waiter of `x`. -/
inductive Move (t : T) (a a' : AState T σ) (x : T) : Prop where
  | stay (h' : a'.loc x = a.loc x)
  | leave (hx : x = t) (h : (a.loc x).Free) (h' : a'.loc x = .none)
  | insert (hx : x = t) (h : a.loc x = .none) (h' : a'.loc x = .muQ)
      (hs : (a.th t).spin = .ins) (hc : (a'.wtr x).cond = none)
  | muJoin (hx : x = t) (h : a.loc x = .none) (h' : a'.loc x = .muQ) (hs : a.v.spin = false)
      (hv : a'.v = a.v.muWaitEnqueue (a'.wtr x).cond.isSome)
  | pick (h : a.loc x = .muQ) (h' : a'.loc x = .priv t)
      (hs : (a.th t).spin = .plain ∨ a.v.spin = false)
  | giveBack (h : a.loc x = .priv t) (h' : a'.loc x = .muQ)
      (hs : (a.th t).spin = .plain ∨ a.v.spin = false)
  | dequeue (h : a.loc x = .priv t) (h' : a'.loc x = .wake t)
  | wake (h : a.loc x = .wake t) (h' : a'.loc x = .woken) (hs : (a.th t).spin = .no)
  | removeSelf (hx : x = t) (h : a.loc x = .muQ) (h' : a'.loc x = .none)
      (hp : (a.th t).phase = .muMine)
  | cvJoin (c : Addr) (hx : x = t) (h : a.loc x = .none) (h' : a'.loc x = .cvQ c)
  | cvRemove (c : Addr) (hx : x = t) (h : a.loc x = .cvQ c) (h' : a'.loc x = .none)
      (hp : (a.th t).phase = .cvMine c)
  | select (c : Addr) (h : a.loc x = .cvQ c) (h' : a'.loc x = .toWake t)
      (hcv : (a.th t).cv = .held c)
  | transfer (h : a.loc x = .toWake t) (h' : a'.loc x = .muQ) (hs : a.v.spin = false)
      (hc : (a'.wtr x).cond = none) (hv : a'.v = a.v.transfer)
  | cvWake (h : a.loc x = .toWake t) (h' : a'.loc x = .none)

theorem Move.update {y : T} {l : Loc T} (hloc : a'.loc = Function.update a.loc y l)
    (hy : a'.loc y = l → Move t a a' y) : Move t a a' x := by
  by_cases hx : x = y
  · subst hx
    exact hy (by simp [hloc])
  · exact .stay (by simp [hloc, hx])

/-- Taking the queue, possibly together with the spinlock. -/
theorem Pick.move {b : AState T σ} (hp : Pick E C t b a') (hloc : b.loc = a.loc)
    (hs : (a.th t).spin = .plain ∨ a.v.spin = false) : Move t a a' x := by
  cases hp with
  | pick =>
      by_cases hx : a.loc x = .muQ
      · exact .pick hx (by simp [hloc, hx]) hs
      · exact .stay (by simp [hloc, hx])
  | giveBack =>
      by_cases hx : a.loc x = .priv t
      · exact .giveBack hx (by simp [hloc, hx]) hs
      · exact .stay (by simp [hloc, hx])

/-- Every step moves waiters in one of these ways only. -/
theorem AStep.move (hs : AStep E C t a a') (hp : PlaceInv C a) (x : T) : Move t a a' x := by
  have hct := hp.compat t
  cases hs with
  | acquire m clear hlk hsp hph hv htype =>
      refine .update rfl (.leave rfl ?_)
      cases clear <;> simp_all [Compat, Loc.Free]
  | enqueue m clear hlk hsp hph hv hspin htype =>
      refine .update rfl (.leave rfl ?_)
      cases clear <;> simp_all [Compat, Loc.Free]
  | insert hsp hph hcond =>
      exact .update rfl fun h' =>
        .insert rfl (hp.loc_of_idle hph) h' hsp (by simpa [Waiter.setWaiting] using hcond)
  | grab m testing hlk hsp hr hspin hv ht hpk => exact hpk.move rfl (Or.inr hspin)
  | retake hsp hr hspin hpk => exact hpk.move rfl (Or.inr hspin)
  | next hpk => exact hpk.move rfl (Or.inl hpk.spin_cases.1)
  | dequeue y hr hy => exact .update rfl (.dequeue hy)
  | wake y hsp hy => exact .update rfl fun h' => .wake hy h' hsp
  | muEnqueue rc hph hsp hr hspin =>
      rw [hph] at hct
      exact .update rfl fun h' => .muJoin rfl hct.1 h' hspin rfl
  | removeSelf hph =>
      rw [hph] at hct
      exact .update rfl fun h' => .removeSelf rfl hct.1 h' hph
  | cvEnqueue c w hph hcv hfree hw =>
      rw [hph] at hct
      exact .update rfl (.cvJoin c rfl hct.1)
  | cvRemove c hph =>
      rw [hph] at hct
      exact .update rfl fun h' => .cvRemove c rfl hct.1 h' hph
  | select c y hcv hy hph => exact .update rfl fun h' => .select c hy h' hcv
  | transfer xs b hsp hr hspin hheld hxs hb =>
      by_cases hx : x ∈ xs
      · exact .transfer (hxs x hx).1 (by simp [hx]) hspin (by simpa [hx] using (hxs x hx).2) rfl
      · exact .stay (by simp [hx])
  | cvWake y hy => exact .update rfl (.cvWake hy)
  | _ => exact .stay rfl

section

variable [Fintype T]

/-- A waiter leaves the queue of a condition variable only by a step of a thread
that holds its spinlock. -/
theorem AStep.loc_cvQ (hs : AStep E C t a a') (hl : LockInv a) (hp : PlaceInv C a) {c : Addr}
    (ht : (a.th t).cv.addr ≠ some c) (hx : a.loc x = .cvQ c) : a'.loc x = .cvQ c := by
  cases hs.move hp x with
  | stay h' => rw [h', hx]
  | cvRemove d hxt hd h' hph =>
      rw [hd, Loc.cvQ.injEq] at hx
      subst hx
      exact (ht ((hl.wf t).cvMine d (Or.inr hph))).elim
  | select d hd h' hcv =>
      rw [hd, Loc.cvQ.injEq] at hx
      subst hx
      exact (ht (by simp [hcv])).elim
  | _ => simp_all [Loc.Free]

/-- The mutex queue is fixed while another thread holds the spinlock. -/
theorem AStep.loc_muQ (hs : AStep E C t a a') (hl : LockInv a) (hp : PlaceInv C a) (hut : u ≠ t)
    (hu : (a.th u).spin ≠ .no) : a'.loc x = .muQ ↔ a.loc x = .muQ := by
  have hno : (a.th t).spin = .no := hl.no_spin_of hu (Ne.symm hut)
  have hset : a.v.spin = true := hl.spin.set_of hu
  cases hs.move hp x with
  | stay h' => rw [h']
  | removeSelf hx h h' hph =>
      obtain ⟨old, ho⟩ := (hl.wf t).mine hph
      simp [hno] at ho
  | leave hx h h' => rcases h with h | h <;> simp [h, h']
  | _ => simp_all

end

omit [DecidableEq T] in
/-- A wake list belongs to the thread that made it. -/
theorem Move.wake_iff (hm : Move t a a' x) (hut : u ≠ t) :
    a'.loc x = .wake u ↔ a.loc x = .wake u := by
  cases hm with
  | stay h' => rw [h']
  | leave hx h h' => rcases h with h | h <;> simp [h, h']
  | dequeue h h' => simp [h, h', Ne.symm hut]
  | wake h h' => simp [h, h', Ne.symm hut]
  | _ => simp_all

namespace CvInv

/-- A step that leaves the words and spinlocks of the condition variables alone. -/
theorem frame (h : CvInv a) (hs : AStep E C t a a') (hw : a'.cvw = a.cvw)
    (hcv : (a'.th t).cv = (a.th t).cv) : CvInv a' where
  spin c := by
    refine (h.spin c).congr (by rw [hw]) fun u => ?_
    by_cases hu : u = t
    · subst hu
      rw [hcv]
    · rw [hs.th_of_ne hu]
  dbg u c w hu := by
    rw [hw]
    by_cases hut : u = t
    · subst hut
      exact h.dbg u c w (hcv ▸ hu)
    · rw [hs.th_of_ne hut] at hu
      exact h.dbg u c w hu

/-- Thread `t` takes the spinlock of `c`. -/
theorem take (h : CvInv a) (hs : AStep E C t a a') {c : Addr} {w : Word}
    (hfree : (a.cvw c).getLsbD 0 = false) (hw : w.getLsbD 0 = true)
    (hcvw : a'.cvw = Function.update a.cvw c w) (hold : (a.th t).cv = .no)
    (ht : (a'.th t).cv.addr = some c)
    (hdbg : ∀ d w', (a'.th t).cv = .dbg d w' →
      a'.cvw d = w' ||| cvSpinlock ∧ w'.getLsbD 0 = false) : CvInv a' where
  spin d := by
    by_cases hdc : d = c
    · subst hdc
      exact (h.spin d).take hfree (by simpa [hcvw] using hw) ht fun u hu => by rw [hs.th_of_ne hu]
    · refine (h.spin d).congr (by rw [hcvw, Function.update_of_ne hdc]) fun u => ?_
      by_cases hu : u = t
      · subst hu
        simp [ht, hold, Ne.symm hdc]
      · rw [hs.th_of_ne hu]
  dbg u d w' hu := by
    by_cases hut : u = t
    · subst hut
      exact hdbg d w' hu
    · rw [hs.th_of_ne hut] at hu
      have hdc : d ≠ c := by
        rintro rfl
        exact (h.spin d).not_of_clear hfree (t := u) (by simp [hu])
      rw [hcvw, Function.update_of_ne hdc]
      exact h.dbg u d w' hu

/-- Thread `t` stores a word into `c` that releases the spinlock. -/
theorem drop (h : CvInv a) (hs : AStep E C t a a') {c : Addr} {w : Word}
    (hw : w.getLsbD 0 = false) (hcvw : a'.cvw = Function.update a.cvw c w)
    (hold : (a.th t).cv.addr = some c) (ht : (a'.th t).cv = .no) : CvInv a' where
  spin d := by
    by_cases hdc : d = c
    · subst hdc
      exact (h.spin d).drop hold (by simpa [hcvw] using hw) (by simp [ht])
        fun u hu => by rw [hs.th_of_ne hu]
    · refine (h.spin d).congr (by rw [hcvw, Function.update_of_ne hdc]) fun u => ?_
      by_cases hu : u = t
      · subst hu
        simp [ht, hold, Ne.symm hdc]
      · rw [hs.th_of_ne hu]
  dbg u d w' hu := by
    by_cases hut : u = t
    · subst hut
      rw [ht] at hu
      cases hu
    · rw [hs.th_of_ne hut] at hu
      have hdc : d ≠ c := by
        rintro rfl
        exact hut ((h.spin d).unique u t (by simp [hu]) hold)
      rw [hcvw, Function.update_of_ne hdc]
      exact h.dbg u d w' hu

theorem step (h : CvInv a) (hs : AStep E C t a a') : CvInv a' := by
  have hs' := hs
  cases hs' with
  | stutter => exact h
  | grab m testing hlk hsp hr hspin hv ht hp => cases hp <;> exact h.frame hs rfl (by simp)
  | retake hsp hr hspin hp => cases hp <;> exact h.frame hs rfl (by simp)
  | next hp => cases hp <;> exact h.frame hs rfl (by simp)
  | cvEnqueue c w hp hcv hfree hw =>
      exact h.take hs hfree hw rfl hcv (by simp) (by simp)
  | cvTake c r w hcv hfree hw hr =>
      refine h.take hs hfree hw rfl hcv ?_ ?_
      · rcases hr with rfl | ⟨rfl, -⟩ <;> simp
      · intro d w' hd
        rcases hr with rfl | ⟨rfl, rfl⟩
        · simp at hd
        · simp only [AState.setTh, Function.update_self, CvRole.dbg.injEq] at hd
          obtain ⟨rfl, rfl⟩ := hd
          exact ⟨by simp, hfree⟩
  | cvRelease c w hcv hw hp => exact h.drop hs hw rfl hcv (by simp)
  | _ => exact h.frame hs rfl (by simp)

end CvInv

end Nsync.Mu
