import Nsync.Pool.Inv

/-!
# The pool never hands a waiter to two users

Every step of a call keeps the invariant.  Hence in every state that the threads
can reach a waiter is on the list once, or reserved, in use, or on its way for
exactly one thread.
-/

namespace Nsync.Pool

open Nsync.Lib

variable {T W : Type} [DecidableEq T] [DecidableEq W]

section

variable {tls : Bool} {s s' : State T W} {o : W → Option T} {l : List W} {t : T} {w : W}
  {p p' : Pc W}

/-! ## Steps of the calls -/

/-- A step that changes only the place of a thread. -/
theorem Inv.go (hi : Inv tls s o l)
    (ht : ThreadOk tls (s.slot t) (s.waiterForThread t) (s.held t) p' (fun w => o w = some t)
      s.flags) (hsp : p'.spinning = (s.pc t).spinning)
    (hf : ∀ tw q, p' = .newRemove tw q → l.head? = some q) (hc : p'.creates = (s.pc t).creates)
    (hu : p'.usesKey = true → s.ptOnce = 2#32) : Inv tls (s.setPc t p') o l :=
  hi.goto ht (hi.spin.goto rfl rfl hsp hf) (hi.once.goto rfl rfl rfl hc hu)

omit [DecidableEq T] in
theorem Inv.thread (hi : Inv tls s o l) (hp : s.pc t = p) :
    ThreadOk tls (s.slot t) (s.waiterForThread t) (s.held t) p (fun w => o w = some t) s.flags :=
  hp ▸ hi.threads t

theorem ThreadOk.once {slot loc : Option W} {held : List W} {own : W → Prop} {flags : W → Word}
    {k : OnceCont W} {q : OncePc} (h : ThreadOk tls slot loc held (.once k q) own flags) :
    (∀ q', ThreadOk tls slot loc held (.once k q') own flags) ∧
      ThreadOk tls slot loc held k.pc own flags := by
  cases k with
  | getSpecific =>
      exact ⟨fun q' => h.goto rfl rfl rfl (by simp [Pc.remembers]) rfl (fun hs => by cases hs) rfl,
        h.goto rfl rfl rfl (by simp [OnceCont.pc, Pc.remembers]) rfl (fun hs => by cases hs) rfl⟩
  | setSpecific w =>
      exact ⟨fun q' => h.goto rfl rfl rfl (by simp [Pc.remembers]) rfl (fun hs => by cases hs) rfl,
        h.goto rfl rfl rfl (by simp [OnceCont.pc, Pc.remembers]) rfl (fun hs => by cases hs) rfl⟩

theorem doOnce_inv {k : OnceCont W} {q : OncePc} (hi : Inv tls s o l)
    (hp : s.pc t = .once k q) : Inv tls (doOnce s t k q) o l := by
  obtain ⟨honce, hdone⟩ := (hi.thread hp).once
  have hkpc : k.pc.spinning = false ∧ k.pc.creates = none ∧ ∀ tw q, k.pc ≠ .newRemove tw q := by
    cases k <;> exact ⟨rfl, rfl, fun _ _ => by simp [OnceCont.pc]⟩
  -- Only a thread with the token 1 in the word creates the key.
  have hwait : ∀ q', (Pc.once k q').creates = none → (s.pc t).creates = none →
      Inv tls (s.setPc t (.once k q')) o l := fun q' hq' hq =>
    hi.go (honce q') (by rw [hp]; rfl) (fun _ _ h => by cases h) (by rw [hq', hq])
      fun hk => by cases hk
  have hleave : s.ptOnce = 2#32 → (s.pc t).creates = none → Inv tls (s.setPc t k.pc) o l :=
    fun h2 hq => hi.go hdone (by rw [hp, hkpc.1]; rfl) (fun _ _ h => (hkpc.2.2 _ _ h).elim)
      (by rw [hkpc.2.1, hq]) fun _ => h2
  cases q with
  | load =>
      have hq : (s.pc t).creates = none := by rw [hp]; rfl
      rw [doOnce]
      split_ifs with h2 h0
      · exact hleave h2 hq
      · exact hwait _ rfl hq
      · exact hwait _ rfl hq
  | cas =>
      rw [doOnce]
      split_ifs with h0
      · refine hi.goto (honce .create) (hi.spin.goto rfl rfl (by rw [hp]; rfl)
          fun _ _ h => by cases h) ⟨?_, Or.inr (Or.inl rfl), (fun h => by cases h),
          (fun h => by cases h), fun u n hn => ?_, fun u hu => ?_⟩
        · refine hi.once.owned.take (t := t) (by simp [h0]) rfl (by simp [State.setPc, Pc.creates])
            fun u hu => ?_
          simp [State.setPc, hu]
        · have hk := hi.once.zero h0
          by_cases hut : u = t
          · subst hut
            simp only [State.setPc, Function.update_self, Pc.creates, Option.some.injEq] at hn
            exact hn ▸ hk
          · simp only [State.setPc, Function.update_of_ne hut] at hn
            exact hi.once.creates u n hn
        · by_cases hut : u = t
          · subst hut
            simp [State.setPc, Pc.usesKey] at hu
          · simp only [State.setPc, Function.update_of_ne hut] at hu
            have := hi.once.usesKey u hu
            rw [h0] at this
            cases this
      · exact hwait _ rfl (by rw [hp]; rfl)
  | reload =>
      have hq : (s.pc t).creates = none := by rw [hp]; rfl
      rw [doOnce]
      split_ifs with h0
      · exact hwait _ rfl hq
      · exact hwait _ rfl hq
  | create =>
      have hcr : (s.pc t).creates = some 0 := by rw [hp]; rfl
      have h1 : s.ptOnce = 1#32 := by
        simpa using hi.once.owned.set_of (t := t) (by rw [hcr]; simp)
      rw [doOnce]
      refine hi.goto (honce .store) (hi.spin.goto rfl rfl (by rw [hp]; rfl)
        fun _ _ h => by cases h) ⟨?_, hi.once.word, fun h0 => ?_, fun h2 => ?_, fun u n hn => ?_,
        fun u hu => ?_⟩
      · refine hi.once.owned.congr rfl fun u => ?_
        by_cases hut : u = t
        · subst hut
          simp only [State.setPc, Function.update_self, hcr]
          simp [Pc.creates]
        · simp [State.setPc, hut]
      · rw [show s.ptOnce = 0#32 from h0] at h1
        cases h1
      · rw [show s.ptOnce = 2#32 from h2] at h1
        cases h1
      · have hk := hi.once.creates t 0 hcr
        by_cases hut : u = t
        · subst hut
          simp only [State.setPc, Function.update_self, Pc.creates, Option.some.injEq] at hn
          change s.keys + 1 = n
          omega
        · simp only [State.setPc, Function.update_of_ne hut] at hn
          exact (hut (hi.once.owned.unique u t (by simp [hn]) (by simp [hcr]))).elim
      · by_cases hut : u = t
        · subst hut
          simp [State.setPc, Pc.usesKey] at hu
        · simp only [State.setPc, Function.update_of_ne hut] at hu
          exact hi.once.usesKey u hu
  | store =>
      have hcr : (s.pc t).creates = some 1 := by rw [hp]; rfl
      rw [doOnce]
      refine hi.goto (honce .wait) (hi.spin.goto rfl rfl (by rw [hp]; rfl)
        fun _ _ h => by cases h) ⟨?_, Or.inr (Or.inr rfl), (fun h0 => by cases h0),
        fun _ => hi.once.creates t 1 hcr, fun u n hn => ?_, fun _ _ => rfl⟩
      · refine hi.once.owned.drop (t := t) (by simp [hcr]) rfl (by simp [State.setPc, Pc.creates])
          fun u hu => ?_
        simp [State.setPc, hu]
      · by_cases hut : u = t
        · subst hut
          simp [State.setPc, Pc.creates] at hn
        · simp only [State.setPc, Function.update_of_ne hut] at hn
          exact hi.once.creates u n hn
  | wait =>
      have hq : (s.pc t).creates = none := by rw [hp]; rfl
      rw [doOnce]
      split_ifs with h2
      · exact hleave h2 hq
      · exact hwait _ rfl hq

/-- One step in taking the spinlock. -/
theorem spinTestAndSet_inv {spin : SpinPc → Pc W} {q : SpinPc} (hi : Inv tls s o l)
    (hload : ∀ q', Inv tls (s.setPc t (spin q')) o l)
    (hnext : s.freeWaitersMu = 0#32 → Inv tls { s.setPc t p' with freeWaitersMu := 1#32 } o l) :
    Inv tls (spinTestAndSet s t spin p' q) o l := by
  cases q with
  | load => exact hload _
  | cas old =>
      rw [spinTestAndSet]
      split_ifs with h
      · obtain ⟨hbit, rfl⟩ := h
        rcases hi.spin.word with h0 | h1
        · have := hnext h0
          rwa [h0]
        · rw [h1] at hbit
          cases hbit
      · exact hload _

omit [DecidableEq T] in
theorem dllWaiter_eq (hi : Inv tls s o l) (hw : o w = some t) : dllWaiter s w = some w := by
  have hrec := hi.lists.record w (hi.lists.owned w t hw)
  have hc : (s.wtr w).container = w := by rw [hrec]; rfl
  rw [dllWaiter]
  simp only [hc]
  rw [if_pos]
  refine ⟨by rw [hrec]; rfl, trivial, ?_, by rw [hrec]; rfl⟩
  rw [hrec]
  change nsyncWaiterFlagMucv &&& nsyncWaiterFlagMucv ≠ 0#32
  decide

/-- The steps of `nsync_waiter_new_`. -/
theorem waiterNew_inv (hi : Inv tls s o l) (hp : s.pc t = p) (hs : waiterNew tls s t p = some s') :
    ∃ o' l', Inv tls s' o' l' := by
  have ht := hi.thread hp
  cases p with
  | newStart =>
      cases hs
      refine ⟨o, l, hi.go ?_ ?_ ?_ ?_ ?_⟩
      · split_ifs with htls
        · refine ht.goto rfl rfl rfl (fun tw htw => ?_) rfl (fun h => by cases h) rfl
          rw [← Option.some.inj htw]
          exact ht.local_eq htls
        · exact ht.goto rfl rfl rfl (fun tw htw => by cases htw) rfl (fun h => by cases h) rfl
      all_goals cases tls <;> simp [hp, Pc.spinning, Pc.creates, Pc.usesKey]
  | getSpecific =>
      have hk : s.keys = 1 := hi.once.two (hi.once.usesKey t (by rw [hp]; rfl))
      rw [waiterNew, if_neg (by omega)] at hs
      cases hs
      exact ⟨o, l, hi.go (ht.goto rfl rfl rfl (fun tw htw => (Option.some.inj htw).symm) rfl
        (fun h => by cases h) rfl) (by rw [hp]; rfl) (fun _ _ h => by cases h) (by rw [hp]; rfl)
        fun h => by cases h⟩
  | newCheck tw =>
      cases tw with
      | none =>
          cases hs
          exact ⟨o, l, hi.go (ht.goto rfl rfl rfl ht.tw_eq rfl (fun h => by cases h) rfl)
            (by rw [hp]; rfl) (fun _ _ h => by cases h) (by rw [hp]; rfl) fun h => by cases h⟩
      | some w =>
          rw [waiterNew] at hs
          split_ifs at hs with hf
          · cases hs
            exact ⟨o, l, hi.go (ht.takeReserved hf) (by rw [hp]; rfl) (fun _ _ h => by cases h)
              (by rw [hp]; rfl) fun h => by cases h⟩
          · cases hs
            exact ⟨o, l, hi.go (ht.goto rfl rfl rfl ht.tw_eq rfl (fun h => by cases h) rfl)
              (by rw [hp]; rfl) (fun _ _ h => by cases h) (by rw [hp]; rfl) fun h => by cases h⟩
  | newSpin tw q =>
      cases hs
      refine ⟨o, l, spinTestAndSet_inv hi (fun q' => ?_) fun hm => ?_⟩
      · exact hi.go (ht.goto rfl rfl rfl ht.tw_eq rfl (fun h => by cases h) rfl)
          (by rw [hp]; rfl) (fun _ _ h => by cases h) (by rw [hp]; rfl) fun h => by cases h
      · exact hi.goto (ht.goto rfl rfl rfl ht.tw_eq rfl (fun h => by cases h) rfl)
          (hi.spin.acquire rfl hm rfl rfl fun _ _ => by simp)
          (hi.once.goto rfl rfl rfl (by rw [hp]; rfl) fun h => by cases h)
  | newFirst tw =>
      cases hs
      rw [hi.lists.list.firstOf]
      cases hl : l.head? with
      | none =>
          exact ⟨o, l, hi.go (ht.goto rfl rfl rfl ht.tw_eq rfl (fun h => by cases h) rfl)
            (by rw [hp]; rfl) (fun _ _ h => by cases h) (by rw [hp]; rfl) fun h => by cases h⟩
      | some q =>
          refine ⟨o, l, hi.go (ht.goto rfl rfl rfl ht.tw_eq rfl (fun h => by cases h) rfl)
            (by rw [hp]; rfl) (fun _ _ h => ?_) (by rw [hp]; rfl) fun h => by cases h⟩
          cases h
          exact hl
  | newRemove tw q =>
      cases hs
      exact hi.remove hp
  | newUnpack tw q =>
      have hq : o q = some t := (ht.own_iff q).mpr (Or.inr (Or.inr rfl))
      rw [waiterNew, dllWaiter_eq hi hq] at hs
      cases hs
      exact ⟨o, l, hi.go (ht.goto rfl rfl rfl ht.tw_eq rfl (fun h => by cases h) rfl)
        (by rw [hp]; rfl) (fun _ _ h => by cases h) (by rw [hp]; rfl) fun h => by cases h⟩
  | newRelease tw w =>
      cases hs
      cases w with
      | none =>
          exact ⟨o, l, hi.goto (ht.goto rfl rfl rfl ht.tw_eq rfl (fun h => by cases h) rfl)
            (hi.spin.release rfl rfl (by rw [hp]; rfl) rfl)
            (hi.once.goto rfl rfl rfl (by rw [hp]; rfl) fun h => by cases h)⟩
      | some w =>
          exact ⟨o, l, hi.goto (ht.goto rfl rfl rfl ht.tw_eq rfl (fun h => by cases h) rfl)
            (hi.spin.release rfl rfl (by rw [hp]; rfl) rfl)
            (hi.once.goto rfl rfl rfl (by rw [hp]; rfl) fun h => by cases h)⟩
  | newReserve tw w =>
      have hw : o w = some t := (ht.own_iff w).mpr (Or.inr (Or.inr rfl))
      cases tw with
      | none =>
          cases hs
          have := hi.write (s.held t) hw (fun _ h => h) ht.reserve (by rw [hp]; rfl)
            (fun _ _ => by simp) (by rw [hp]; rfl) rfl
          rw [Function.update_eq_self] at this
          exact ⟨o, l, this⟩
      | some tw =>
          cases hs
          exact ⟨o, l, hi.go (ht.goto rfl rfl rfl (fun _ h => by cases h) rfl (fun _ => rfl) rfl)
            (by rw [hp]; rfl) (fun _ _ h => by cases h) (by rw [hp]; rfl) fun h => by cases h⟩
  | setSpecific w =>
      have hk : s.keys = 1 := hi.once.two (hi.once.usesKey t (by rw [hp]; rfl))
      rw [waiterNew, if_neg (by omega)] at hs
      cases hs
      refine ⟨o, l, hi.next rfl (fun u hu => Function.update_of_ne hu _ _) (fun _ _ => rfl)
        (fun _ _ => rfl) (fun _ _ _ => Iff.rfl) (fun _ _ _ _ => rfl) ?_
        (hi.lists.congr rfl rfl rfl rfl rfl) (hi.spin.goto rfl rfl ?_ ?_)
        (hi.once.goto rfl rfl rfl ?_ ?_) rfl⟩
      · change ThreadOk tls (Function.update s.slot t (some w) t) _ _ _ _ _
        rw [Function.update_self]
        exact ht.store
      all_goals cases tls <;> simp [hp, Pc.spinning, Pc.creates, Pc.usesKey]
  | setLocal w =>
      cases hs
      refine ⟨o, l, hi.next rfl (fun _ _ => rfl) (fun u hu => Function.update_of_ne hu _ _)
        (fun _ _ => rfl) (fun _ _ _ => Iff.rfl) (fun _ _ _ _ => rfl) ?_
        (hi.lists.congr rfl rfl rfl rfl rfl)
        (hi.spin.goto rfl rfl (by rw [hp]; rfl) fun _ _ h => by cases h)
        (hi.once.goto rfl rfl rfl (by rw [hp]; rfl) fun h => by cases h) rfl⟩
      change ThreadOk tls _ (Function.update s.waiterForThread t (some w) t) _ _ _ _
      rw [Function.update_self]
      exact ht.storeLocal
  | newUse w =>
      cases hs
      have hw : o w = some t := (ht.own_iff w).mpr (Or.inr (Or.inr rfl))
      exact ⟨o, l, hi.write _ hw (fun _ h => List.mem_cons_of_mem _ h) ht.obtain (by rw [hp]; rfl)
        (fun _ _ => by simp) (by rw [hp]; rfl) rfl⟩
  | _ => cases hs

/-- The steps of `nsync_waiter_free_`. -/
theorem waiterFree_inv (hi : Inv tls s o l) (hp : s.pc t = p) (hs : waiterFree s t p = some s') :
    ∃ o' l', Inv tls s' o' l' := by
  have ht := hi.thread hp
  cases p with
  | freeAssert w =>
      rw [waiterFree, if_neg (ht.inUse_set (Or.inr rfl))] at hs
      cases hs
      exact ⟨o, l, hi.go (ht.goto rfl rfl rfl (fun _ h => by cases h) rfl (fun h => by cases h) rfl)
        (by rw [hp]; rfl) (fun _ _ h => by cases h) (by rw [hp]; rfl) fun h => by cases h⟩
  | freeClear w =>
      cases hs
      have hw : o w = some t := (ht.own_iff w).mpr (Or.inr (Or.inl (Or.inr rfl)))
      have := hi.write (s.held t) hw (fun _ h => h) ht.clearInUse (by rw [hp]; rfl)
        (fun _ _ => by simp) (by rw [hp]; rfl) rfl
      rw [Function.update_eq_self] at this
      exact ⟨o, l, this⟩
  | freeTest w =>
      cases hs
      refine ⟨o, l, hi.go ht.freeTest ?_ ?_ ?_ ?_⟩
      all_goals split_ifs <;> simp [hp, Pc.spinning, Pc.creates, Pc.usesKey]
  | _ => cases hs

/-- The steps of `waiter_destroy`. -/
theorem waiterDestroy_inv (hi : Inv tls s o l) (hp : s.pc t = p)
    (hs : waiterDestroy s t p = some s') : ∃ o' l', Inv tls s' o' l' := by
  have ht := hi.thread hp
  cases p with
  | destroyReset w =>
      cases hs
      refine ⟨o, l, hi.next rfl (fun _ _ => rfl) (fun u hu => Function.update_of_ne hu _ _)
        (fun _ _ => rfl) (fun _ _ _ => Iff.rfl) (fun _ _ _ _ => rfl) ?_
        (hi.lists.congr rfl rfl rfl rfl rfl)
        (hi.spin.goto rfl rfl (by rw [hp]; rfl) fun _ _ h => by cases h)
        (hi.once.goto rfl rfl rfl (by rw [hp]; rfl) fun h => by cases h) rfl⟩
      change ThreadOk tls _ (Function.update s.waiterForThread t none t) _ _ _ _
      rw [Function.update_self]
      exact ht.reset
  | destroyAssert w =>
      have hw : o w = some t := (ht.own_iff w).mpr (Or.inl (Or.inr rfl))
      have hheld : w ∉ s.held t := ht.carried w (Or.inr (Or.inr rfl))
      rw [waiterDestroy, if_pos (by
        rw [ht.flags_eq w hw]
        simp [Pc.reserving, Pc.inUse, hheld, flagBits, waiterReserved, waiterInUse])] at hs
      cases hs
      exact ⟨o, l, hi.go (ht.goto rfl rfl rfl (fun _ h => by cases h) rfl (fun h => by cases h) rfl)
        (by rw [hp]; rfl) (fun _ _ h => by cases h) (by rw [hp]; rfl) fun h => by cases h⟩
  | destroyClear w =>
      cases hs
      have hw : o w = some t := (ht.own_iff w).mpr (Or.inl (Or.inr rfl))
      have := hi.write (s.held t) hw (fun _ h => h) ht.clearReserved (by rw [hp]; rfl)
        (fun _ _ => by simp) (by rw [hp]; rfl) rfl
      rw [Function.update_eq_self] at this
      exact ⟨o, l, this⟩
  | _ => cases hs

/-- The steps that put a waiter on the list. -/
theorem pushFree_inv (hi : Inv tls s o l) (hp : s.pc t = p) (hs : pushFree s t p = some s') :
    ∃ o' l', Inv tls s' o' l' := by
  have ht := hi.thread hp
  cases p with
  | pushSpin w q =>
      cases hs
      refine ⟨o, l, spinTestAndSet_inv hi (fun q' => ?_) fun hm => ?_⟩
      · exact hi.go (ht.goto rfl rfl rfl (fun _ h => by cases h) rfl (fun h => by cases h) rfl)
          (by rw [hp]; rfl) (fun _ _ h => by cases h) (by rw [hp]; rfl) fun h => by cases h
      · exact hi.goto (ht.goto rfl rfl rfl (fun _ h => by cases h) rfl (fun h => by cases h) rfl)
          (hi.spin.acquire rfl hm rfl rfl fun _ _ => by simp)
          (hi.once.goto rfl rfl rfl (by rw [hp]; rfl) fun h => by cases h)
  | push w =>
      cases hs
      exact hi.push hp
  | pushRelease =>
      cases hs
      exact ⟨o, l, hi.goto
        (ht.goto rfl rfl rfl (fun _ h => by cases h) rfl (fun h => by cases h) rfl)
        (hi.spin.release rfl rfl (by rw [hp]; rfl) rfl)
        (hi.once.goto rfl rfl rfl (by rw [hp]; rfl) fun h => by cases h)⟩
  | _ => cases hs

/-! ## Runs -/

theorem callStep_inv (hi : Inv tls s o l) (hs : callStep tls s t = some s') :
    ∃ o' l', Inv tls s' o' l' := by
  rw [callStep] at hs
  split at hs
  case h_1 k q hp =>
    cases hs
    exact ⟨o, l, doOnce_inv hi hp⟩
  case h_2 hp => exact waiterFree_inv hi hp hs
  case h_3 hp => exact waiterFree_inv hi hp hs
  case h_4 hp => exact waiterFree_inv hi hp hs
  case h_5 hp => exact waiterDestroy_inv hi hp hs
  case h_6 hp => exact waiterDestroy_inv hi hp hs
  case h_7 hp => exact waiterDestroy_inv hi hp hs
  case h_8 hp => exact pushFree_inv hi hp hs
  case h_9 hp => exact pushFree_inv hi hp hs
  case h_10 hp => exact pushFree_inv hi hp hs
  case h_11 => exact waiterNew_inv hi rfl hs

/-- `nsync_waiter_free_` is called for a waiter that is on no queue. -/
theorem waiterFree_call_inv {r : Option W} (hi : Inv tls s o l) (hp : s.pc t = .client r)
    (hw : w ∈ s.held t) (halone : s.links.Alone w) :
    Inv tls { s.setPc t (.freeAssert w) with
      held := Function.update s.held t ((s.held t).erase w) } o l := by
  have ht := hi.thread hp
  refine hi.next rfl (fun _ _ => rfl) (fun _ _ => rfl)
    (fun u hu => Function.update_of_ne hu _ _) (fun _ _ _ => Iff.rfl) (fun _ _ _ _ => rfl) ?_
    ⟨hi.lists.list, hi.lists.free, hi.lists.owned, hi.lists.flags, hi.lists.record,
      fun v u hv hn => ?_⟩
    (hi.spin.goto rfl rfl (by rw [hp]; rfl) fun _ _ h => by cases h)
    (hi.once.goto rfl rfl rfl (by rw [hp]; rfl) fun h => by cases h) rfl
  · change ThreadOk tls _ _ (Function.update s.held t ((s.held t).erase w) t) _ _ _
    rw [Function.update_self]
    exact ht.giveBack hw
  · change v ∉ Function.update s.held t ((s.held t).erase w) u at hn
    by_cases hvw : v = w
    · exact hvw ▸ halone
    · by_cases hut : u = t
      · subst hut
        rw [Function.update_self, List.mem_erase_of_ne hvw] at hn
        exact hi.lists.alone v u hv hn
      · rw [Function.update_of_ne hut] at hn
        exact hi.lists.alone v u hv hn

/-- A thread exits with the waiter `w` under the key. -/
theorem exit_inv {r : Option W} (hi : Inv tls s o l) (hp : s.pc t = .client r)
    (hw : s.slot t = some w) (hheld : s.held t = []) :
    Inv tls { s.setPc t (.destroyReset w) with slot := Function.update s.slot t none } o l := by
  have ht := hi.thread hp
  rw [hw, hheld] at ht
  refine hi.next rfl (fun u hu => Function.update_of_ne hu _ _) (fun _ _ => rfl) (fun _ _ => rfl)
    (fun _ _ _ => Iff.rfl) (fun _ _ _ _ => rfl) ?_ (hi.lists.congr rfl rfl rfl rfl rfl)
    (hi.spin.goto rfl rfl (by rw [hp]; rfl) fun _ _ h => by cases h)
    (hi.once.goto rfl rfl rfl (by rw [hp]; rfl) fun h => by cases h) rfl
  change ThreadOk tls (Function.update s.slot t none t) _ (s.held t) _ _ _
  rw [Function.update_self, hheld]
  exact ht.exit

omit [DecidableEq T] in
/-- The users change the links of waiters in use. -/
theorem use_inv {h : Links W} (hi : Inv tls s o l)
    (hh : ∀ w, (∀ t, w ∉ s.held t) → h.next w = s.links.next w ∧ h.prev w = s.links.prev w) :
    Inv tls { s with links := h } o l := by
  have hl := hi.lists
  have hheld : ∀ w u, w ∈ s.held u → o w = some u := fun w u hw =>
    ((hi.threads u).own_iff w).mpr (Or.inr (Or.inl (Or.inl hw)))
  have hfree : ∀ w ∈ l, h.next w = s.links.next w ∧ h.prev w = s.links.prev w :=
    fun w hw => hh w fun u hu => hl.notMem (hheld w u hu) hw
  refine ⟨hi.threads, ⟨hl.list.congr (fun w hw => (hfree w hw).1) fun w hw => (hfree w hw).2,
    hl.free, hl.owned, hl.flags, hl.record, fun w t hw hn => ?_⟩,
    ⟨hi.spin.owned, hi.spin.word, hi.spin.first⟩,
    ⟨hi.once.owned, hi.once.word, hi.once.zero, hi.once.two, hi.once.creates, hi.once.usesKey⟩,
    hi.sound⟩
  have hsame := hh w fun u hu => by
    obtain rfl := Option.some.inj (hw.symm.trans (hheld w u hu))
    exact hn hu
  have halone := hl.alone w t hw hn
  exact ⟨hsame.1.trans halone.1, hsame.2.trans halone.2⟩

theorem step_inv {i : T × Act W} (hi : Inv tls s o l) (hP : Proper i s)
    (hs : step tls i s = some s') : ∃ o' l', Inv tls s' o' l' := by
  rw [step, if_neg (by simp [hi.sound])] at hs
  obtain ⟨t, a⟩ := i
  cases a with
  | waiterNew =>
      cases hp : s.pc t with
      | client r =>
          have ht := hi.thread hp
          simp only [hp] at hs
          cases hs
          exact ⟨o, l, hi.go
            (ht.goto rfl rfl rfl (fun _ h => by cases h) rfl (fun h => by cases h) rfl)
            (by rw [hp]; rfl) (fun _ _ h => by cases h) (by rw [hp]; rfl) fun h => by cases h⟩
      | _ => simp [hp] at hs
  | waiterFree w =>
      cases hp : s.pc t with
      | client r =>
          simp only [hp] at hs
          cases hs
          exact ⟨o, l, waiterFree_call_inv hi hp hP.1 hP.2⟩
      | _ => simp [hp] at hs
  | exit =>
      cases hp : s.pc t with
      | client r =>
          simp only [hp] at hs
          obtain ⟨w, hw, rfl⟩ := Option.map_eq_some_iff.mp hs
          exact ⟨o, l, exit_inv hi hp hw hP⟩
      | _ => simp [hp] at hs
  | step => exact callStep_inv hi hs
  | malloc w =>
      cases hp : s.pc t with
      | newMalloc tw =>
          simp only [hp, waiterMalloc] at hs
          split_ifs at hs with hw
          cases hs
          exact hi.malloc hp (by simpa using hw)
      | _ => simp [hp, waiterMalloc] at hs
  | use h =>
      cases hs
      exact ⟨o, l, use_inv hi hP⟩

theorem exists_inv {wtr : W → Waiter W} (h : Reach (step tls) Proper (initial wtr) s) :
    ∃ o l, Inv tls s o l :=
  h.invariant (I := fun s => ∃ o l, Inv tls s o l) ⟨_, _, inv_initial tls wtr⟩ (by
    rintro i a b - ⟨o, l, hi⟩ hP hs
    exact step_inv hi hP hs)

end

/-! ## What the threads see -/

/-- Thread `t` has reserved `w`: it is under the key or in the thread-local variable,
or the thread is about to put it there or has just taken it from there. -/
def Reserves (tls : Bool) (s : State T W) (t : T) (w : W) : Prop :=
  s.slot t = some w ∨ (s.pc t).reserving = some w ∨ tls = true ∧ s.waiterForThread t = some w

/-- Thread `t` has obtained `w` and has not given it back. -/
def Uses (s : State T W) (t : T) (w : W) : Prop := w ∈ s.held t ∨ (s.pc t).inUse = some w

inductive Condition (T : Type) where
  | free
  | reserved (t : T)
  | inUse (t : T)
  /-- The thread is between two statements of a function of the pool and carries the
  waiter to or from the list. -/
  | moving (t : T)
  deriving DecidableEq

/-- The waiter `w` is in the given condition. -/
def Is (tls : Bool) (s : State T W) (w : W) : Condition T → Prop
  | .free => (∃ l, Denotes s.links s.freeWaiters l ∧ l.count w = 1) ∧ s.flags w = 0#32
  | .reserved t => Reserves tls s t w ∧ s.flags w = waiterReserved
  | .inUse t => Uses s t w ∧ s.flags w &&& waiterInUse ≠ 0#32
  | .moving t => (s.pc t).moving = some w ∧ s.flags w = 0#32

section

variable {tls : Bool} {s s' : State T W} {o : W → Option T} {l : List W} {t u : T} {v w : W}

omit [DecidableEq T] in
theorem Inv.reserves_iff (hi : Inv tls s o l) :
    Reserves tls s t w ↔ s.slot t = some w ∨ (s.pc t).reserving = some w := by
  constructor
  · rintro (h | h | ⟨ht, h⟩)
    · exact Or.inl h
    · exact Or.inr h
    · rw [(hi.threads t).local_eq ht] at h
      cases hp : s.pc t <;> simp only [hp, Pc.thisLocal] at h <;> first | exact Or.inl h | skip
      · cases h
      · exact Or.inr h
  · rintro (h | h)
    · exact Or.inl h
    · exact Or.inr (Or.inl h)

omit [DecidableEq T] in
/-- A thread has at most one waiter reserved. -/
theorem Inv.reserves_unique (hi : Inv tls s o l) (hv : Reserves tls s t v)
    (hw : Reserves tls s t w) : v = w := by
  have ht := hi.threads t
  have hslot : ∀ {x y : W}, s.slot t = some x → (s.pc t).reserving = some y → x = y := by
    intro x y hx hy
    have hs := ht.reserving y hy
    cases hp : s.pc t <;> simp only [hp, Pc.thisSlot, hx, reduceCtorEq] at hs
    rw [hp] at hy
    exact (Option.some.inj hs).trans (Option.some.inj hy)
  rw [hi.reserves_iff] at hv hw
  rcases hv with hv | hv <;> rcases hw with hw | hw
  · exact Option.some.inj (hv.symm.trans hw)
  · exact hslot hv hw
  · exact (hslot hw hv).symm
  · exact Option.some.inj (hv.symm.trans hw)

omit [DecidableEq T] in
theorem Inv.owner_of_reserves (hi : Inv tls s o l) (h : Reserves tls s t w) : o w = some t :=
  ((hi.threads t).own_iff w).mpr (Or.inl (hi.reserves_iff.mp h))

omit [DecidableEq T] in
theorem Inv.owner_of_uses (hi : Inv tls s o l) (h : Uses s t w) : o w = some t :=
  ((hi.threads t).own_iff w).mpr (Or.inr (Or.inl h))

omit [DecidableEq T] in
theorem Inv.owner_of_moving (hi : Inv tls s o l) (h : (s.pc t).moving = some w) : o w = some t :=
  ((hi.threads t).own_iff w).mpr (Or.inr (Or.inr h))

/-- The condition of a waiter, by its owner and its flags. -/
def conditionOf (o : W → Option T) (s : State T W) (w : W) : Condition T :=
  match o w with
  | none => .free
  | some t =>
      if s.flags w &&& waiterInUse ≠ 0#32 then .inUse t
      else if s.flags w = waiterReserved then .reserved t else .moving t

omit [DecidableEq T] in
theorem Inv.is_conditionOf (hi : Inv tls s o l) (hw : s.allocated w = true) :
    Is tls s w (conditionOf o s w) := by
  cases ho : o w with
  | none =>
      have hmem : w ∈ l := (hi.lists.free w).mpr ⟨hw, ho⟩
      rw [conditionOf, ho]
      exact ⟨⟨l, hi.lists.list, List.count_eq_one_of_mem hi.lists.list.nodup hmem⟩,
        hi.lists.flags w hmem⟩
  | some t =>
      have ht := hi.threads t
      have hf := ht.flags_eq w ho
      have hcases := (ht.own_iff w).mp ho
      rw [conditionOf, ho]
      dsimp only
      by_cases hu : w ∈ s.held t ∨ (s.pc t).inUse = some w
      · have hset := ht.inUse_set hu
        rw [if_pos hset]
        exact ⟨hu, hset⟩
      · by_cases hr : s.slot t = some w ∨ (s.pc t).reserving = some w
        · have hfw : s.flags w = waiterReserved := by
            rw [hf]
            simp [hu, hr, flagBits]
          rw [if_neg (by rw [hfw]; decide), if_pos hfw]
          exact ⟨hi.reserves_iff.mpr hr, hfw⟩
        · have hfw : s.flags w = 0#32 := by
            rw [hf]
            simp [hu, hr, flagBits]
          rw [if_neg (by rw [hfw]; decide), if_neg (by rw [hfw]; decide)]
          exact ⟨(hcases.resolve_left hr).resolve_left hu, hfw⟩

omit [DecidableEq T] in
theorem Inv.eq_conditionOf {c : Condition T} (hi : Inv tls s o l) (h : Is tls s w c) :
    c = conditionOf o s w := by
  cases c with
  | free =>
      obtain ⟨⟨k, hk, hcount⟩, -⟩ := h
      obtain rfl := hk.unique hi.lists.list
      have hmem : w ∈ k := List.count_pos_iff.mp (by omega)
      rw [conditionOf, ((hi.lists.free w).mp hmem).2]
  | reserved t =>
      rw [conditionOf, hi.owner_of_reserves h.1]
      dsimp only
      rw [if_neg (by rw [h.2]; decide), if_pos h.2]
  | inUse t =>
      rw [conditionOf, hi.owner_of_uses h.1]
      dsimp only
      rw [if_pos h.2]
  | moving t =>
      rw [conditionOf, hi.owner_of_moving h.1]
      dsimp only
      rw [if_neg (by rw [h.2]; decide), if_neg (by rw [h.2]; decide)]

/-- In every reachable state each waiter is on the list exactly once, or exactly one
thread has it reserved, in use, or on its way; a thread has at most one waiter
reserved; a waiter that `nsync_waiter_new_` returns is in nobody's use and not
reserved by another thread; and no `ASSERT` has failed. -/
theorem pool_correct {wtr : W → Waiter W} (h : Reach (step tls) Proper (initial wtr) s) :
    (∀ w, s.allocated w = true → ∃! c, Is tls s w c) ∧
    (∀ t v w, Reserves tls s t v → Reserves tls s t w → v = w) ∧
    (∀ t u w, s.pc t = .newUse w → ¬ Uses s u w ∧ (Reserves tls s u w → u = t)) ∧
    s.crashed = false := by
  obtain ⟨o, l, hi⟩ := exists_inv h
  refine ⟨fun w hw => ⟨_, hi.is_conditionOf hw, fun c hc => hi.eq_conditionOf hc⟩,
    fun t v w hv hw => hi.reserves_unique hv hw, fun t u w hp => ?_, hi.sound⟩
  have hmoving : (s.pc t).moving = some w := by rw [hp]; rfl
  have ho := hi.owner_of_moving hmoving
  refine ⟨fun hu => ?_, fun hr => Option.some.inj ((hi.owner_of_reserves hr).symm.trans ho)⟩
  obtain rfl := Option.some.inj ((hi.owner_of_uses hu).symm.trans ho)
  rcases hu with hu | hu
  · exact (hi.threads u).carried w (Or.inl hmoving) hu
  · rw [hp] at hu
    cases hu

instance [Fintype T] [Fintype W] (i : T × Act W) (s : State T W) : Decidable (Proper i s) :=
  match i with
  | (_, .waiterFree _) => inferInstanceAs (Decidable (_ ∧ _))
  | (_, .exit) => inferInstanceAs (Decidable (_ = _))
  | (_, .use _) => inferInstanceAs (Decidable (∀ _, _))
  | (_, .waiterNew) | (_, .step) | (_, .malloc _) => inferInstanceAs (Decidable True)

/-- A thread waits in a wait, and gives the second waiter back. -/
def nestedRun : List (Fin 1 × Act (Fin 2)) :=
  List.flatten [[(0, .waiterNew)], List.replicate 6 (0, .step), [(0, .malloc 0)],
    List.replicate 9 (0, .step), [(0, .waiterNew)], List.replicate 6 (0, .step), [(0, .malloc 1)],
    List.replicate 2 (0, .step), [(0, .waiterFree 1)], List.replicate 2 (0, .step)]

theorem nestedRun_reaches : ∃ s : State (Fin 1) (Fin 2),
    Reach (step true) Proper (initial initWaiter) s ∧ s.allocated 1 = true ∧
      s.pc 0 = .freeTest 1 ∧ s.flags 1 = 0#32 := by
  have hrun : ((exec (step true) (fun i s => decide (Proper i s)) nestedRun
      (initial initWaiter)).map fun s =>
        decide (s.allocated 1 = true ∧ s.pc 0 = .freeTest 1 ∧ s.flags 1 = 0#32)) = some true := by
    decide +kernel
  obtain ⟨s, hs, hf⟩ := Reach.exists_of_exec (P := Proper) (fun _ _ h => of_decide_eq_true h) hrun
  exact ⟨s, hs, of_decide_eq_true hf⟩

/-- Between two statements of `nsync_waiter_free_` a waiter is neither on the list nor
reserved nor in use. -/
theorem between_statements : ∃ (s : State (Fin 1) (Fin 2)) (w : Fin 2),
    Reach (step true) Proper (initial initWaiter) s ∧ s.allocated w = true ∧
      ¬ Is true s w .free ∧ ∀ t, ¬ Is true s w (.reserved t) ∧ ¬ Is true s w (.inUse t) := by
  obtain ⟨s, hs, hw, hp, hf⟩ := nestedRun_reaches
  obtain ⟨o, l, hi⟩ := exists_inv hs
  have hmoving : Is true s 1 (.moving 0) := ⟨by rw [hp]; rfl, hf⟩
  have hc := hi.eq_conditionOf hmoving
  refine ⟨s, 1, hs, hw, fun h => ?_, fun t => ⟨fun h => ?_, fun h => ?_⟩⟩
  · cases hc.trans (hi.eq_conditionOf h).symm
  · cases hc.trans (hi.eq_conditionOf h).symm
  · cases hc.trans (hi.eq_conditionOf h).symm

/-- In the same state the thread carries the waiter to the list. -/
theorem pool_correct_nestedRun : ∃ s : State (Fin 1) (Fin 2),
    Reach (step true) Proper (initial initWaiter) s ∧ ∃! c, Is true s 1 c := by
  obtain ⟨s, hs, hw, -⟩ := nestedRun_reaches
  exact ⟨s, hs, (pool_correct hs).1 1 hw⟩

end

end Nsync.Pool
