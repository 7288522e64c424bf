import Nsync.Mu.Run

/-!
# `MU_ALL_FALSE` is sound

While the bit is set, every queued waiter has a condition.  The conditions are
false in the protected state, or, during a write section, were so when the
section began.
-/

namespace Nsync.Mu

open Nsync.Lib

variable {T σ : Type} [DecidableEq T]

variable {E : Env σ} {C : WaitCondition → Prop} {t u x : T} {a a' : AState T σ}

/-- The waiters of the mutex all have conditions that are false at `y`. -/
def AllFalseAt (E : Env σ) (C : WaitCondition → Prop) (a : AState T σ) (y : σ) : Prop :=
  ∀ x, (a.loc x).Queued → FalseAt E C a.wtr y x

/-- Nobody holds the mutex exclusively, except to look after a timeout whether its
own waiter is still queued. -/
def NoSection (a : AState T σ) : Prop :=
  ∀ u, (a.th u).lock = some .writer → ∃ old, (a.th u).spin = .hold old

/-- A thread is between the acquisition and the release of a write lock. -/
def InSection (b : Abs T) : Prop :=
  b.lock = some .writer ∧ b.spin = .no ∧ b.region = false

structure AllFalseOk (E : Env σ) (C : WaitCondition → Prop) (a : AState T σ) : Prop where
  free : a.v.allFalse = true → NoSection a → AllFalseAt E C a a.prot
  inside : a.v.allFalse = true → ∀ u, InSection (a.th u) → AllFalseAt E C a a.sect

/-- No condition of a queued waiter has become true in the current write
section. -/
def KeptFalse (E : Env σ) (a : AState T σ) : Prop :=
  ∀ x c, (a.loc x).Queued → (a.wtr x).cond = some c → c.holds E a.sect = false →
    c.holds E a.prot = false

omit [DecidableEq T] in
/-- The waiters are the same or fewer, with the same conditions. -/
theorem AllFalseAt.mono {y : σ} (h : AllFalseAt E C a y)
    (hq : ∀ x, (a'.loc x).Queued → (a.loc x).Queued ∧ (a'.wtr x).cond = (a.wtr x).cond) :
    AllFalseAt E C a' y := by
  intro x hx
  obtain ⟨hx₀, hc₀⟩ := hq x hx
  obtain ⟨c, hc, hfalse⟩ := h x hx₀
  exact ⟨c, hc₀.trans hc, hfalse⟩

omit [DecidableEq T] in
theorem Loc.Queued.not_free {l : Loc T} (h : l.Queued) : ¬ l.Free := by
  rintro (rfl | rfl) <;> simp [Loc.Queued] at h

variable [Fintype T]

/-- Whoever is queued while `MU_ALL_FALSE` stays set was queued before. -/
theorem AStep.queued_of_allFalse (hs : AStep E C t a a') (hi : AInv E C a)
    (haf : a'.v.allFalse = true) (hx : (a'.loc x).Queued) :
    (a.loc x).Queued ∧ (a'.wtr x).cond = (a.wtr x).cond := by
  have hq : (a.loc x).Queued := by
    cases hs.move hi.place x with
    | stay h' => exact h' ▸ hx
    | pick h h' hsp => exact Or.inl h
    | giveBack h h' hsp => exact Or.inr ⟨t, h⟩
    | insert hxt h h' hsp hc =>
        -- the bit was cleared when the spinlock was taken
        have hclear := hi.queue.allFalse t (Or.inl hsp)
        rcases hs.allFalse_mono hi.lock haf with h₀ | ⟨r, hr, -⟩
        · simp [hclear] at h₀
        · simp [hsp] at hr
    | muJoin hxt h h' hsp hv =>
        rw [hv] at haf
        cases haf
    | transfer h h' hsp hc hv =>
        rw [hv] at haf
        cases haf
    | _ => simp_all [Loc.Queued]
  exact ⟨hq, (hs.wtr_frame hq.not_free).1⟩

omit [DecidableEq T] in
theorem LockInv.noSection (h : LockInv a) (hw : a.v.wlock = false) : NoSection a :=
  fun _ hu => (h.shares.write.not_of_clear hw hu).elim

omit [DecidableEq T] in
/-- The only writer holds the mutex after a timeout. -/
theorem LockInv.noSection_of_hold (h : LockInv a) {old : Word} (ht : (a.th t).spin = .hold old) :
    NoSection a := by
  intro u hu
  obtain rfl : u = t := h.shares.eq_of_writer ((h.wf t).hold old ht).1 hu
  exact ⟨old, ht⟩

omit [DecidableEq T] [Fintype T] in
theorem NoSection.not_inSection (hn : NoSection a) (u : T) :
    ¬ InSection (a.th u) := by
  rintro ⟨hlock, hspin, -⟩
  obtain ⟨old, hold⟩ := hn u hlock
  simp [hspin] at hold

/-- A write section begins in the protected state, and nobody is in one before. -/
theorem AStep.sect_cases (hs : AStep E C t a a') (hl : LockInv a)
    (hdbg : ∀ w, (a.th t).spin ≠ .dbg w) :
    (a'.sect = a.sect ∧ (InSection (a'.th t) → InSection (a.th t) ∨ (a.th t).Enqueuing)) ∨
      (NoSection a ∧ a'.sect = a.prot) := by
  cases hs with
  | acquire m clear hlk hsp hph hv htype =>
      cases m with
      | reader => exact Or.inl ⟨rfl, fun h => by simp [InSection] at h⟩
      | writer => exact Or.inr ⟨hl.noSection hv.1, rfl⟩
  | tryDone m old hsp hph hr =>
      cases m with
      | reader => exact Or.inl ⟨rfl, fun h => by simp [InSection] at h⟩
      | writer => exact Or.inr ⟨hl.noSection_of_hold hsp, rfl⟩
  | releaseSpin hsp hr =>
      refine Or.inl ⟨rfl, fun h => Or.inr (Or.inr (Or.inr ⟨hsp, ?_⟩))⟩
      simpa using h.2.2
  | grab m testing hlk hsp hr hspin hv ht hp =>
      have hreg := hp.region_eq.2
      refine Or.inl ⟨by cases hp <;> rfl, fun h => ?_⟩
      simp [InSection, hreg] at h
  | retake hsp hr hspin hp | next hp =>
      have hreg := hp.region_eq.2
      refine Or.inl ⟨by cases hp <;> rfl, fun h => ?_⟩
      simp [InSection, hreg] at h
  | transferRelease b hsp => exact Or.inl ⟨rfl, fun _ => Or.inr (Or.inr (Or.inl ⟨b, hsp⟩))⟩
  | dbgStore w hsp => exact (hdbg w hsp).elim
  | stutter | dequeue | wake | setWriterWaiting | select | cvWake | mutate =>
      exact Or.inl ⟨rfl, Or.inl⟩
  | own | cvEnqueue | cvTake | cvRelease | cvRemove | removeSelf =>
      exact Or.inl ⟨rfl, fun h => Or.inl (by simpa [InSection] using h)⟩
  | _ => exact Or.inl ⟨rfl, fun h => by simp [InSection] at h⟩

omit [Fintype T] in
/-- Whoever ends its write section releases the mutex, is about to queue itself,
or looks for waiters without a condition. -/
theorem AStep.section_ends (hs : AStep E C t a a') (hn : ¬ NoSection a)
    (hn' : NoSection a') : a'.prot = a.prot ∧ (InSection (a.th t) ∧ (a'.th t).lock = none ∧
        ((a'.th t).region = false ∨ a.v.cond = false) ∨
      (a.th t).Enqueuing ∨
      ∃ r, (a.th t).spin = .fin r ∧ (a'.v.allFalse = true → r.setAllFalse = true)) := by
  unfold NoSection at hn
  push Not at hn
  obtain ⟨u, hu, hspin⟩ := hn
  have hut : u = t := by
    by_contra hut
    rw [← hs.th_of_ne hut] at hu hspin
    obtain ⟨old, hold⟩ := hn' u hu
    exact hspin old hold
  subst hut
  have hkeep : (a'.th u).lock = some .writer → ∃ old, (a'.th u).spin = .hold old := hn' u
  cases hs with
  | release m b hlk hsp hr hv =>
      exact ⟨rfl, Or.inl ⟨⟨hu, hsp, hr⟩, by simp, Or.inl (by simpa using hr)⟩⟩
  | muRelease m hlk hsp hr => exact ⟨rfl, Or.inr (Or.inl (Or.inr (Or.inr ⟨hsp, hr⟩)))⟩
  | grab m testing hlk hsp hr hspin' hv ht hp =>
      cases testing with
      | false =>
          refine ⟨by cases hp <;> rfl, Or.inl ⟨⟨hu, hsp, hr⟩, ?_, Or.inr ht.symm⟩⟩
          cases hp <;> simp
      | true =>
          have hlock : (a'.th u).lock = some .writer := by cases hp <;> simp
          obtain ⟨old, hold⟩ := hkeep hlock
          obtain ⟨-, h | ⟨r, h⟩⟩ := hp.spin_cases <;> simp [h] at hold
  | retake hsp hr hspin' hp | next hp =>
      have hlock : (a'.th u).lock = some .writer := by
        cases hp <;> simpa using hu
      obtain ⟨old, hold⟩ := hkeep hlock
      obtain ⟨-, h | ⟨r, h⟩⟩ := hp.spin_cases <;> simp [h] at hold
  | final r hsp =>
      refine ⟨rfl, Or.inr (Or.inr ⟨r, hsp, fun haf => ?_⟩)⟩
      simp only [AState.setTh, AState.setV, View.final, Bool.and_eq_true] at haf
      exact haf.1
  | tryDone m old hsp | tryFail old hsp => exact (hspin old hsp).elim
  | acquire m clear hlk | enqueue m clear hlk | tryAcquire old hlk => simp [hu] at hlk
  | insert | releaseSpin | muEnqueue | transfer | transferRelease | dbgTake | dbgStore =>
      obtain ⟨old, hold⟩ := hkeep (by simpa using hu)
      simp at hold
  | _ =>
      obtain ⟨old, hold⟩ := hkeep (by simpa using hu)
      exact (hspin old (by simpa using hold)).elim

omit [DecidableEq T] in
/-- The last CAS of a scan leaves only waiters whose conditions it has found
false; without the mutex it leaves none at all. -/
theorem AInv.allFalse_final {r : Release T} (hi : AInv E C a)
    (hsp : (a.th t).spin = .fin r) (hr : r.setAllFalse = true) :
    AllFalseAt E C a a.prot ∧ (r.late = false → ∀ x, ¬ (a.loc x).Queued) := by
  have hf := hi.queue.fin t r hsp
  have hmuQ : ∀ x, (a.loc x).Queued → a.loc x = .muQ := by
    rintro x (hx | ⟨u, hx⟩)
    · exact hx
    · obtain ⟨hreg, hfin⟩ := hi.place.priv x u hx
      obtain rfl := hi.queue.region u t hreg ((hi.lock.wf t).fin r hsp).1
      exact (hfin r hsp).elim
  refine ⟨fun x hx => hf.allFalse hr x (hmuQ x hx), fun hl x hx => ?_⟩
  obtain ⟨c, hc, -⟩ := hf.allFalse hr x (hmuQ x hx)
  simp [hf.noCond hl x (hmuQ x hx)] at hc

theorem AllFalseOk.step (h : AllFalseOk E C a) (hi : AInv E C a) (hs : AStep E C t a a')
    (hdbg : ∀ w, (a.th t).spin ≠ .dbg w)
    (hkept : InSection (a.th t) → (a'.th t).lock = none → (a'.th t).region = false →
      a'.v.allFalse = true → KeptFalse E a) : AllFalseOk E C a' := by
  have hmono : ∀ {y}, a'.v.allFalse = true → AllFalseAt E C a y → AllFalseAt E C a' y :=
    fun haf hat => hat.mono fun x => hs.queued_of_allFalse hi haf
  refine ⟨fun haf hn' => ?_, fun haf u hu => ?_⟩
  · by_cases hn : NoSection a
    · have hprot : a'.prot = a.prot := by
        rcases hs.prot_cases with heq | ⟨hlk, hsp, hreg, -⟩
        · exact heq
        · exact (hn.not_inSection t ⟨hlk, hsp, hreg⟩).elim
      rw [hprot]
      rcases hs.allFalse_mono hi.lock haf with haf₀ | ⟨r, hsp, hr⟩
      · exact hmono haf (h.free haf₀ hn)
      · exact hmono haf (hi.allFalse_final hsp hr).1
    · obtain ⟨hprot, hends⟩ := hs.section_ends hn hn'
      rw [hprot]
      refine hmono haf ?_
      rcases hends with ⟨hin, hlock, hcase⟩ | henq | ⟨r, hsp, hr⟩
      · have haf₀ : a.v.allFalse = true := by
          rcases hs.allFalse_mono hi.lock haf with haf₀ | ⟨r, hsp, -⟩
          · exact haf₀
          · simp [hin.2.1] at hsp
        intro x hx
        obtain ⟨c, hc, hfalse⟩ := h.inside haf₀ t hin x hx
        rcases hcase with hreg | hcond
        · exact ⟨c, hc, fun hC => hkept hin hlock hreg haf x c hx hc (hfalse hC)⟩
        · have := hi.queue.cond x hx (by simp [hc])
          simp [hcond] at this
      · have hclear := hi.queue.allFalse t henq
        rcases hs.allFalse_mono hi.lock haf with haf₀ | ⟨r, hsp, -⟩
        · simp [hclear] at haf₀
        · exact (henq.spin_ne.2 r hsp).elim
      · exact (hi.allFalse_final hsp (hr haf)).1
  · rcases hs.allFalse_mono hi.lock haf with haf₀ | ⟨r, hsp, hr⟩
    · refine hmono haf ?_
      rcases hs.sect_cases hi.lock hdbg with ⟨hsect, hself⟩ | ⟨hn, hsect⟩
      · rw [hsect]
        by_cases hut : u = t
        · subst hut
          rcases hself hu with hin | henq
          · exact h.inside haf₀ u hin
          · simp [hi.queue.allFalse u henq] at haf₀
        · rw [hs.th_of_ne hut] at hu
          exact h.inside haf₀ u hu
      · rw [hsect]
        exact h.free haf₀ hn
    · have hlate : r.late = false := by
        by_contra hlate
        have hlock : (a.th t).lock = some .writer := by
          rw [((hi.lock.wf t).fin r hsp).2, if_pos (by simpa using hlate)]
        by_cases hut : u = t
        · subst hut
          rcases hs.sect_cases hi.lock hdbg with ⟨-, hself⟩ | ⟨hn, -⟩
          · rcases hself hu with hin | henq
            · simp [hin.2.1] at hsp
            · exact henq.spin_ne.2 r hsp
          · obtain ⟨old, hold⟩ := hn u hlock
            simp [hsp] at hold
        · rw [hs.th_of_ne hut] at hu
          exact hut (hi.lock.shares.eq_of_writer hlock hu.1)
      refine hmono haf fun x hx => ?_
      exact ((hi.allFalse_final hsp hr).2 hlate x hx).elim

/-! ## Who ends a write section without a look at the queue -/

section

variable {s s' : State T σ} {loc loc' : T → Loc T}

omit [Fintype T] in
theorem scanNext_region (s : State T σ) (t : T) (m : Mode) (k : UnlockCont) (sc : Scan T) :
    ((scanNext s t m k sc).pc t).region = true := by
  unfold scanNext
  split
  · simp [State.setPc, Pc.region]
  · simp only [State.setPc, Function.update_self]
    split <;> rfl

omit [Fintype T] in
theorem afterUnlock_word {w : Word} (k : UnlockCont) :
    (afterUnlock (s.setWord w) t k).word = w := by
  cases k <;> rfl

/-- The only way to end a write section and leave `MU_ALL_FALSE` set. -/
theorem step_withoutWakeup {c : Act σ} (hg : Good E C s loc) (hg' : Good E C s' loc')
    (hs : step E t c s = some s') (hin : InSection (s.pc t).abs)
    (hlock : (s'.pc t).lockRole = none) (hreg : (s'.pc t).region = false)
    (haf : (view s'.word).allFalse = true) : ∃ k p, s.pc t = .unlock .withoutWakeup k p := by
  have hshare : (view s.word).HasShare .writer := hg.inv.lock.shares.hasShare (t := t) hin.1
  have hcompat : Compat (loc t) (s.wtr t).core (s.pc t).phase := hg.inv.place.compat t
  have hok' := (hg'.pcs t).ok
  obtain ⟨hw, hsp, hr⟩ := hin
  change (s.pc t).lockRole = some .writer at hw
  change (s.pc t).spinRole = .no at hsp
  change (s.pc t).region = false at hr
  have hne : ∀ {s₁ : State T σ} {p : Pc T} {P : Prop} {m : Mode},
      ((s₁.setPc t p).pc t).lockRole = none → p.lockRole = some m → P := by
    intro s₁ p P m h hp
    rw [State.setPc_self, hp] at h
    cases h
  cases c with
  | post =>
      cases hs
      change (s.pc t).lockRole = none at hlock
      simp [hlock] at hw
  | call c =>
      simp only [step] at hs
      split at hs
      · next held hpc =>
          rw [hpc] at hw
          have hheld : held = some .writer := hw
          subst hheld
          cases c <;> simp only [callStep, reduceCtorEq, if_false] at hs
          case unlock =>
            split at hs <;> cases hs
            exact hne hlock rfl
          case setProt =>
            split at hs <;> cases hs
            change (s.pc t).lockRole = none at hlock
            simp [hpc, Pc.lockRole] at hlock
          all_goals
            cases hs
            exact hne hlock rfl
      · cases hs
  | step ch =>
      simp only [step] at hs
      cases hpc : s.pc t <;> simp only [hpc, Option.some.injEq] at hs <;>
        rw [hpc] at hw hsp hr
      case client | panicked => cases hs
      case lock | lockSlow => cases hw
      case unlock kind k p =>
        subst hs
        cases kind with
        | withoutWakeup => exact ⟨k, p, rfl⟩
        | runlock => cases hw
        | unlock =>
            exfalso
            cases p <;> simp only [muUnlock] at hlock haf hok' <;> repeat' split at hlock
            case cas0.isTrue hword =>
              rw [if_pos hword, afterUnlock_word, view_zero] at haf
              cases haf
            case load.isTrue hpanic =>
              rw [if_pos hpanic, State.setPc_self] at hok'
              exact hok'
            case cas.isTrue old hword =>
              rw [if_pos hword, afterUnlock_word, ← hword,
                view_newWord hshare] at haf
              simp [View.releaseShare, UnlockKind.clearsAllFalse] at haf
            all_goals exact hne hlock rfl
      case unlockSlow m k p =>
        exfalso
        subst hs
        cases p <;> simp only [Pc.lockRole, Pc.region, reduceCtorEq, Option.some.injEq] at hw hr
        case top =>
          simp only [muUnlockSlow] at hlock
          repeat' split at hlock
          all_goals exact hne hlock rfl
        case fast old =>
          simp only [muUnlockSlow] at hlock haf
          split at hlock
          · next hword =>
              subst hw
              rw [if_pos hword, afterUnlock_word, ← hword,
                view_uncontendedReleaseWord hshare] at haf
              simp [View.releaseShare] at haf
          · exact hne hlock rfl
        case grab old =>
          simp only [muUnlockSlow] at hlock hreg
          split at hlock
          · next hword =>
              rw [if_pos hword, scanNext_region] at hreg
              cases hreg
          · exact hne hlock rfl
      case muWait l p =>
        exfalso
        rcases p with _ | _ | _ | _ | ⟨_ | _⟩ | ⟨_ | _⟩ | _ | _ | _ | _ | _ | _ | _ | _ |
            ⟨_, _ | _⟩ | _ | _ | _ | _ <;>
          simp only [Pc.lockRole, Pc.spinRole, reduceCtorEq, Option.some.injEq] at hw hsp <;>
          simp only [muWaitWithDeadline] at hs
        case waitLoad =>
          split at hw
          · next hhave =>
              have hnot : (s.wtr t).waiting = false := by
                simp only [hpc, Pc.phase, hhave, if_true] at hcompat
                exact hcompat.2
              simp only [hnot, hhave, Bool.false_eq_true, if_false, if_true] at hs
              cases hs
              exact hne hlock rfl
          · cases hw
        case delay =>
          cases hs
          exact hne hlock (show (Pc.muWait l .waitLoad : Pc T).lockRole = _ from hw)
        all_goals
          repeat' split at hs
        all_goals
          cases hs
          first
          | exact hne hlock rfl
          | (rw [State.setPc_self] at hok'; exact hok')
      case cvWait l p =>
        exfalso
        rcases p with _ | _ | ⟨_ | _⟩ | _ | _ | _ | _ | _ | ⟨_ | _⟩ | _ | _ | ⟨_, _ | _⟩ | _ | _ |
            _ <;>
          simp only [Pc.lockRole, reduceCtorEq, Option.some.injEq] at hw <;>
          simp only [cvWaitWithDeadline] at hs
        all_goals
          repeat' split at hs
        all_goals
          cases hs
          first
          | exact hne hlock rfl
          | (rw [State.setPc_self] at hok'; exact hok')
      case signal l p =>
        exfalso
        subst hs
        have hheld : l.held = some .writer := hw
        rcases p with _ | ⟨_ | _⟩ | ⟨_, _, _ | _⟩ | _ | ⟨_, _, _ | _⟩ | _ <;>
          simp only [cvSignal, signalDone] at hlock <;> repeat' split at hlock
        all_goals exact hne hlock hheld
      case wakeWaiters l p =>
        exfalso
        subst hs
        have hheld : l.held = some .writer := hw
        have hstart : ∀ {s₁ : State T σ} {l' : Wake T}, l'.held = some .writer →
            ¬ ((wakeStart s₁ t l').pc t).lockRole = none := by
          intro s₁ l' hl'
          unfold wakeStart
          split <;> simp [State.setPc, Pc.lockRole, hl']
        rcases p with _ | _ | ⟨_, _ | _⟩ | _ | x <;> simp only [wakeWaiters] at hlock <;>
          repeat' split at hlock
        all_goals
          first
          | exact hstart hheld hlock
          | exact hne hlock hheld
      case debug l p =>
        exfalso
        subst hs
        have hheld : l.held = some .writer := hw
        rcases p with _ | ⟨_ | _⟩ | _ <;> simp only [debugState] at hlock <;>
          repeat' split at hlock
        all_goals exact hne hlock hheld

/-! ## Runs -/

omit [DecidableEq T] in
/-- The waiters that a scan without the mutex has taken for itself have no
conditions. -/
theorem Good.cond_of_priv (h : Good E C s loc) (hw : (s.pc t).lockRole = some .writer)
    (ht : (s.pc t).region = false) (hx : loc x = .priv u) : (s.wtr x).cond = none := by
  have hreg : (s.pc u).region = true := (h.inv.place.priv x u hx).1
  have hmem := ((h.lists.priv u).mem x).mpr hx
  cases hsc : (s.pc u).scan? with
  | none => simp [Pc.priv, Pc.scanOld, Pc.scanNew, hsc] at hmem
  | some sc =>
      obtain ⟨done, rest, hscan⟩ := (h.pcs u).scan sc hsc
      rw [Pc.priv_of_scan hsc] at hmem
      refine hscan.noCond ?_ x hmem
      by_contra hlate
      have hu : (s.pc u).lockRole = some .writer :=
        Pc.lockRole_of_late hsc (by simpa using hlate)
      obtain rfl : u = t := h.inv.lock.shares.eq_of_writer (t := t) (u := u) hw hu
      simp [ht] at hreg

/-- Any call but debugging output, with conditions in `C`; a write section that
`nsync_mu_unlock_without_wakeup` ends has made no condition of a queued waiter
true. -/
def Honest (E : Env σ) (C : WaitCondition → Prop) (t : T) (a : Act σ) (s : State T σ) : Prop :=
  a.CondIn C ∧ Regular t a s ∧ ∀ k p, s.pc t = .unlock .withoutWakeup k p →
    ∀ x ∈ s.waiters, ∀ c, (s.wtr x).cond = some c → c.holds E s.sect = false →
      c.holds E s.prot = false

omit [DecidableEq T] [Fintype T] in
theorem allFalseOk_initial (E : Env σ) (C : WaitCondition → Prop) (y : σ) (loc : T → Loc T) :
    AllFalseOk E C ((initial y : State T σ).abs loc) := by
  have hclear : (view 0#32).allFalse = false := by decide
  constructor <;> intro h <;> exact absurd (hclear.symm.trans h) Bool.false_ne_true

theorem Reachable.allFalseOk {y : σ} (h : Reachable E (Honest E C) y s) :
    (∃ loc, Good E C s loc ∧ AllFalseOk E C (s.abs loc)) ∧ ∀ u, (s.pc u).op ≠ .debug := by
  have hreg : ∀ {s₀ : State T σ}, Reachable E (Honest E C) y s₀ → ∀ u, (s₀.pc u).op ≠ .debug :=
    fun h₀ => (h₀.good_of_noDebug fun _ _ _ hP => ⟨hP.1, hP.2.1.1, hP.2.1.2⟩).2
  refine ⟨?_, hreg h⟩
  refine h.invariant (I := fun s => ∃ loc, Good E C s loc ∧ AllFalseOk E C (s.abs loc))
    ⟨_, Good.initial E C y, allFalseOk_initial E C y _⟩ ?_
  rintro t a s₁ s₂ hr ⟨loc, hg, haf⟩ ⟨hC, ⟨-, hfits⟩, hkept⟩ hs
  have hop := hreg hr
  obtain ⟨loc', hstep, hg'⟩ := step_simulates hg hfits hC hs
  have hg' := hg' fun u w _ hw => (Pc.spinRole_ne_dbg (hop u) w hw).elim
  refine ⟨loc', hg', haf.step hg.inv hstep (Pc.spinRole_ne_dbg (hop t)) ?_⟩
  intro hin hlock hregion hset x c hx hc hfalse
  obtain ⟨k, p, hpc⟩ := step_withoutWakeup hg hg' hs hin hlock hregion hset
  rcases hx with hx | ⟨u, hx⟩
  · exact hkept k p hpc x ((hg.lists.muQ.mem x).mpr hx) c hc hfalse
  · have hnone := hg.cond_of_priv hin.1 hin.2.2 hx
    change (s₁.wtr x).cond = some c at hc
    simp [hnone] at hc

/-- The next step is the CAS of a reader release, or of
`nsync_mu_unlock_without_wakeup`, that succeeds and wakes nobody. -/
def Pc.Skips (w : Word) : Pc T → Prop
  | .unlock kind _ (.cas old) => kind ≠ .unlock ∧ old = w
  | .unlockSlow m _ (.fast old) => m = .reader ∧ old = w
  | _ => False

/-- Such a release keeps `MU_ALL_FALSE` and leaves no writer. -/
theorem Pc.Skips.view (h : (s.pc t).Skips s.word) (hg : Good E C s loc) {ch : Choice}
    (hs : step E t (.step ch) s = some s') :
    (view s'.word).allFalse = (view s.word).allFalse ∧ (view s'.word).wlock = false := by
  have hshare : ∀ {m : Mode}, (s.pc t).lockRole = some m → (Nsync.view s.word).HasShare m :=
    fun hm => hg.inv.lock.shares.hasShare (t := t) hm
  have hread : (s.pc t).lockRole = some .reader → (Nsync.view s.word).wlock = false :=
    fun hm => hg.inv.lock.shares.reader_wlock (t := t) hm
  cases hpc : s.pc t with
  | unlock kind k p =>
      rw [hpc] at h
      cases p with
      | cas old =>
          obtain ⟨hkind, rfl⟩ := h
          simp only [step, hpc, muUnlock, if_true, Option.some.injEq] at hs
          subst hs
          rw [afterUnlock_word, view_newWord (hshare (by rw [hpc]; rfl))]
          cases kind with
          | unlock => exact (hkind rfl).elim
          | runlock =>
              simp [View.releaseShare, View.dropShare, UnlockKind.clearsAllFalse, UnlockKind.mode,
                hread (by rw [hpc]; rfl)]
          | withoutWakeup =>
              simp [View.releaseShare, View.dropShare, UnlockKind.clearsAllFalse, UnlockKind.mode]
      | _ => exact h.elim
  | unlockSlow m k p =>
      rw [hpc] at h
      cases p with
      | fast old =>
          obtain ⟨rfl, rfl⟩ := h
          simp only [step, hpc, muUnlockSlow, if_true, Option.some.injEq] at hs
          subst hs
          rw [afterUnlock_word, view_uncontendedReleaseWord (hshare (by rw [hpc]; rfl))]
          simp [View.releaseShare, View.dropShare, hread (by rw [hpc]; rfl)]
      | _ => exact h.elim
  | _ =>
      rw [hpc] at h
      exact h.elim

omit [DecidableEq T] in
theorem AllFalseOk.of_noSection (h : AllFalseOk E C (s.abs loc)) (hg : Good E C s loc)
    (hC : EqSound E C) (haf : (view s.word).allFalse = true) (hn : NoSection (s.abs loc)) (y : T)
    (hy : y ∈ s.waiters) : ∃ c, (s.wtr y).cond = some c ∧ c.holds E s.prot = false := by
  obtain ⟨c, hc, hfalse⟩ := h.free haf hn y (Or.inl ((hg.lists.muQ.mem y).mp hy))
  exact ⟨c, hc, hfalse hC⟩

/-- Conditions that are declared equal are true at the same time.  Whenever
`MU_ALL_FALSE` is set, nobody holds the mutex exclusively and the spinlock is
free, every waiter has a condition and it is false; and a release that relies on
the bit to wake nobody leaves only such waiters. -/
theorem all_false_sound (hC : EqSound E C) {y : σ} (h : Reachable E (Honest E C) y s)
    (haf : s.word &&& muAllFalse ≠ 0#32) :
    ((∀ u, (s.pc u).lockRole ≠ some .writer) → s.word &&& muSpinlock = 0#32 →
      ∀ x ∈ s.waiters, ∃ c, (s.wtr x).cond = some c ∧ c.holds E s.prot = false) ∧
    ∀ t ch s', Honest E C t (.step ch) s → step E t (.step ch) s = some s' →
      (s.pc t).Skips s.word →
      ∀ x ∈ s'.waiters, ∃ c, (s'.wtr x).cond = some c ∧ c.holds E s'.prot = false := by
  rw [ne_eq, and_muAllFalse, Bool.not_eq_false] at haf
  obtain ⟨⟨loc, hg, hok⟩, -⟩ := h.allFalseOk
  refine ⟨fun hw _ => hok.of_noSection hg hC haf fun u hu => (hw u hu).elim, ?_⟩
  intro t ch s' hP hs hskip
  obtain ⟨haf', hw'⟩ := hskip.view hg hs
  have h' : Reachable E (Honest E C) y s' := Runs.snoc h hP hs
  obtain ⟨⟨loc', hg', hok'⟩, -⟩ := h'.allFalseOk
  exact hok'.of_noSection hg' hC (haf'.trans haf) (hg'.inv.lock.noSection hw')

end

omit [Fintype T] in
theorem eqSound_flagEnv (C : WaitCondition → Prop) : EqSound flagEnv C :=
  fun _ _ _ _ _ _ => rfl

/-- A step of a thread that is not in `nsync_mu_unlock_without_wakeup`. -/
def usual (t : T) (a : Act σ) (s : State T σ) : Bool :=
  decide (Regular t a s) && match s.pc t with
    | .unlock .withoutWakeup _ _ => false
    | _ => true

theorem honest_of_usual (E : Env σ) {t : T} {a : Act σ} {s : State T σ}
    (h : usual t a s = true) : Honest E (fun _ => True) t a s := by
  rw [usual, Bool.and_eq_true, decide_eq_true_eq] at h
  refine ⟨a.condIn_true, h.1, fun k p hpc => ?_⟩
  simp [hpc] at h

/-- A thread waits for a condition, and an unlocker has found it false. -/
def foundFalseRun : List (Fin 2 × Act Bool) :=
  [(1, .call (.lock .writer))] ++ goOn 1 1 ++
  [(1, .call (.muWait (some ⟨1, 2, none⟩) false))] ++ goOn 1 9 ++
  [(0, .call (.lock .writer))] ++ goOn 0 3 ++ [(0, .call (.unlock .unlock))] ++ goOn 0 12

theorem all_false_sound_foundFalseRun : ∃ s : State (Fin 2) Bool,
    Reachable flagEnv (Honest flagEnv fun _ => True) false s ∧ s.word &&& muAllFalse ≠ 0#32 ∧
    s.waiters = [1] ∧ ∃ c, (s.wtr 1).cond = some c ∧ c.holds flagEnv s.prot = false := by
  have hrun : (exec (fun (i : Fin 2 × Act Bool) s => step flagEnv i.1 i.2 s)
      (fun i s => usual i.1 i.2 s) foundFalseRun (initial false)).map (fun s => decide (s.word &&& muAllFalse ≠ 0#32 ∧
        s.word &&& muSpinlock = 0#32 ∧ s.waiters = [1] ∧
        ∀ u, (s.pc u).lockRole ≠ some .writer)) = some true := by decide +kernel
  obtain ⟨s, hs, hf⟩ := Reach.exists_of_exec (fun _ _ => honest_of_usual flagEnv) hrun
  obtain ⟨haf, hsp, hq, hw⟩ := of_decide_eq_true hf
  exact ⟨s, hs, haf, hq, (all_false_sound (eqSound_flagEnv _) hs haf).1 hw hsp 1 (by simp [hq])⟩

end Nsync.Mu
