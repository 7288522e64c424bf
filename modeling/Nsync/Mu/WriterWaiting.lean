import Nsync.Mu.Stranded
import Nsync.Mu.WaitCall

/-!
# The bit that holds readers off

`MU_WRITER_WAITING` makes newly arriving readers wait.  It is set for the sake
of a writer on the queue, of a writer that has been woken, or of a thread that
spins in `mu_try_acquire_after_timeout_or_cancel`.  That function clears the bit
when it acquires, and then stores the word that it found before: it may write
back a bit that stood for nobody but itself.
-/

namespace Nsync.Mu

open Nsync.Lib

variable {T σ : Type} [DecidableEq T]

variable {E : Env σ} {C : WaitCondition → Prop} {t u x : T} {a a' : AState T σ}

/-- A writer on the queue, or one that has been taken off it to be woken. -/
def AState.WriterAround (a : AState T σ) (x : T) : Prop :=
  (a.wtr x).lType = .writer ∧ (a.Waits x ∨ (a.loc x).Dequeued)

/-- The bit is set for the sake of thread `x`. -/
def AState.Stands (a : AState T σ) (x : T) : Prop :=
  a.WriterAround x ∨ (a.th x).trying = true

/-- The bit stands for `x` also after thread `u` has left
`mu_try_acquire_after_timeout_or_cancel`. -/
def AState.StandsWithout (a : AState T σ) (u x : T) : Prop :=
  x ≠ u ∧ a.Stands x ∨ (a.wtr x).lType = .writer ∧ (a.loc x).Dequeued

/-- Nobody is without ground for the bit, in the word or in a remembered word. -/
structure Founded (a : AState T σ) : Prop where
  word : a.v.writerWaiting = true → ∃ x, a.Stands x
  hold : ∀ u old, (a.th u).spin = .hold old → (view old).writerWaiting = true →
    ∃ x, a.StandsWithout u x

/-- Spinning ends with the store that gives up the spinlock. -/
theorem AStep.trying_step (hs : AStep E C t a a') (hx : (a.th x).trying = true) :
    (a'.th x).trying = true ∨ x = t ∧ (∃ old, (a.th t).spin = .hold old) := by
  by_cases hxt : x = t
  · subst hxt
    cases hs with
    | own p tr lw w hc hmine hnew hcond htype hC htr => exact Or.inl (by simpa using htr hx)
    | tryDone m old hsp | tryFail old hsp => exact Or.inr ⟨rfl, old, hsp⟩
    | grab _ _ _ _ _ _ _ _ hp | retake _ _ _ hp | next hp =>
        exact Or.inl (by cases hp <;> simpa using hx)
    | stutter | dequeue | wake | setWriterWaiting | select | cvWake | mutate => exact Or.inl hx
    | _ => exact Or.inl (by simpa using hx)
  · exact Or.inl (by rw [hs.th_of_ne hxt, hx])

/-- The bit goes on to stand for `x`, unless `x` has acquired or stopped to spin. -/
theorem AStep.stands_step (hs : AStep E C t a a') (hp : PlaceInv C a) (hp' : PlaceInv C a')
    (hx : a.Stands x) : a'.Stands x ∨ x = t ∧
      ((a.th t).lock = none ∧ (a'.th t).lock = some .writer ∨ (a.th t).phase = .muMine ∨
        ∃ old, (a.th t).spin = .hold old) := by
  rcases hx with ⟨hm, hx⟩ | hx
  · rcases hs.around_step hp hp' hx with hx' | ⟨rfl, hacq | hmine⟩
    · exact Or.inl (Or.inl ⟨(hs.lType_step hx).trans hm, hx'⟩)
    · exact Or.inr ⟨rfl, Or.inl (hm ▸ hacq)⟩
    · exact Or.inr ⟨rfl, Or.inr (Or.inl hmine)⟩
  · rcases hs.trying_step hx with hx' | ⟨rfl, hold⟩
    · exact Or.inl (Or.inr hx')
    · exact Or.inr ⟨rfl, Or.inr (Or.inr hold)⟩

/-- Both locks are taken together, by the CAS after a timeout. -/
theorem AStep.hold_cases (hs : AStep E C t a a') {old : Word}
    (hold : (a'.th t).spin = .hold old) : (a.th t).spin = .hold old ∨
      a.v = view old ∧ a'.loc = a.loc ∧ a'.wtr = a.wtr ∧ (a'.th t).trying = (a.th t).trying ∧
        ∀ o, (a.th t).spin ≠ .hold o := by
  cases hs with
  | tryAcquire old' hlk hsp htr hv =>
      obtain rfl : old' = old := by simpa using hold
      exact Or.inr ⟨hv, rfl, rfl, by simp, by simp [hsp]⟩
  | grab _ _ _ _ _ _ _ _ hp | retake _ _ _ hp | next hp => cases hp <;> simp_all
  | stutter | dequeue | wake | setWriterWaiting | select | cvWake | mutate => exact Or.inl hold
  | _ => simp_all

namespace Founded

variable [Fintype T]

/-- While `u` holds both locks, nobody else can acquire or stop to spin. -/
theorem standsWithout_step (hs : AStep E C t a a') (hi : AInv E C a) (hi' : AInv E C a')
    {old old' : Word} (hu : (a.th u).spin = .hold old) (hu' : (a'.th u).spin = .hold old')
    (hx : a.StandsWithout u x) : a'.StandsWithout u x := by
  have hother : t ≠ u → (a.th t).spin = .no := fun htu => hi.lock.no_spin_of (by simp [hu]) htu
  rcases hx with ⟨hxu, hx⟩ | ⟨hm, hx⟩
  · rcases hs.stands_step hi.place hi'.place hx with hx' | ⟨rfl, ⟨-, hacq⟩ | hmine | ⟨o, ho⟩⟩
    · exact Or.inl ⟨hxu, hx'⟩
    · exact (hxu (hi'.lock.eq_of_hold hu' hacq)).elim
    · obtain ⟨o, ho⟩ := (hi.lock.wf x).mine hmine
      simp [hother hxu] at ho
    · simp [hother hxu] at ho
  · rcases hs.dequeued_step hi.place hx with hx' | ⟨rfl, ⟨hlk, hacq⟩ | hins⟩
    · exact Or.inr ⟨(hs.lType_step (Or.inr hx)).trans hm, hx'⟩
    · obtain rfl : x = u := hi'.lock.eq_of_hold hu' hacq
      simp [((hi.lock.wf x).hold old hu).1] at hlk
    · obtain rfl : x = u := hi'.lock.spin.unique x u (by simp [hins]) (by simp [hu'])
      simp [hins] at hu'

theorem step_hold (h : Founded a) (hs : AStep E C t a a') (hi : AInv E C a) (hi' : AInv E C a')
    (hcas : ∀ old, (∀ o, (a.th t).spin ≠ .hold o) → (a'.th t).spin = .hold old →
      a.v.writerWaiting = true → ∃ x, a.StandsWithout t x)
    {old : Word} (hu : (a'.th u).spin = .hold old) (hw : (view old).writerWaiting = true) :
    ∃ x, a'.StandsWithout u x := by
  have keep : (a.th u).spin = .hold old → ∃ x, a'.StandsWithout u x := by
    intro hu₀
    obtain ⟨x, hx⟩ := h.hold u old hu₀ hw
    exact ⟨x, standsWithout_step hs hi hi' hu₀ hu hx⟩
  by_cases hut : u = t
  · subst hut
    rcases hs.hold_cases hu with hu₀ | ⟨hv, hloc, hwtr, -, hnew⟩
    · exact keep hu₀
    · obtain ⟨x, hx⟩ := hcas old hnew hu (by rw [hv, hw])
      refine ⟨x, hx.imp (fun ⟨hxu, hst⟩ => ⟨hxu, ?_⟩) fun hx => by rwa [hloc, hwtr]⟩
      simpa only [AState.Stands, AState.WriterAround, AState.Waits, hloc, hwtr,
        hs.th_of_ne hxu] using hst
  · exact keep (by rwa [hs.th_of_ne hut] at hu)

theorem step_word (h : Founded a) (hs : AStep E C t a a') (hi : AInv E C a) (hi' : AInv E C a')
    (hdbg : ∀ w, (a.th t).spin ≠ .dbg w) (hw : a'.v.writerWaiting = true) :
    ∃ x, a'.Stands x := by
  -- the bit stands for the same thread, unless that one acquires
  have hold : a.v.writerWaiting = true →
      ¬ ((a.th t).lock = none ∧ (a'.th t).lock = some .writer) →
      (∀ old, (a.th t).spin = .hold old → (a'.th t).trying = true) → ∃ x, a'.Stands x := by
    intro hw₀ hnot htry
    obtain ⟨x, hx⟩ := h.word hw₀
    rcases hs.stands_step hi.place hi'.place hx with hx' | ⟨rfl, hacq | hmine | ⟨o, ho⟩⟩
    · exact ⟨x, hx'⟩
    · exact (hnot hacq).elim
    · obtain ⟨o, ho⟩ := (hi.lock.wf x).mine hmine
      exact ⟨x, Or.inr (htry o ho)⟩
    · exact ⟨x, Or.inr (htry o ho)⟩
  have htr : ∀ old, (a.th t).spin = .hold old → (a.th t).trying = true :=
    fun old ho => ((hi.lock.wf t).hold old ho).2
  have back : ∀ old, (a.th t).spin = .hold old → (view old).writerWaiting = true →
      a'.loc = a.loc → a'.wtr = a.wtr → ∃ x, a'.Stands x := by
    intro old ho hw₀ hloc hwtr
    obtain ⟨x, ⟨hxt, hx⟩ | ⟨hm, hx⟩⟩ := h.hold t old ho hw₀
    · refine ⟨x, ?_⟩
      simpa only [AState.Stands, AState.WriterAround, AState.Waits, hloc, hwtr,
        hs.th_of_ne hxt] using hx
    · exact ⟨x, Or.inl ⟨by rw [hwtr, hm], Or.inr (by rwa [hloc])⟩⟩
  cases hs with
  | acquire m clear hlk hsp hph hv htype =>
      cases m with
      | reader => exact hold (by simpa [View.acquire] using hw) (by simp) (by simp [hsp])
      | writer => simp [View.acquire] at hw
  | enqueue m clear hlk hsp hph hv hspin htype =>
      cases m with
      | reader => exact hold (by simpa [View.enqueue] using hw) (by simp [hlk]) (by simp [hsp])
      | writer => exact ⟨t, Or.inl ⟨by simpa using htype, Or.inl (Or.inr (by simp))⟩⟩
  | final r hsp =>
      cases hr : r.setWriterWaiting with
      | true =>
          obtain ⟨x, hx, hm⟩ := (hi.queue.fin t r hsp).writer hr
          exact ⟨x, Or.inl ⟨by simpa using hm, Or.inl (Or.inl (Or.inl (by simpa using hx)))⟩⟩
      | false =>
          refine hold ?_ (by simp) (by simp [hsp])
          simp only [AState.setTh, AState.setV, View.final, hr, Bool.or_false,
            Bool.and_eq_true] at hw
          exact hw.1
  | transferRelease b hsp =>
      cases b with
      | true =>
          obtain ⟨x, hx, hm⟩ := hi.queue.xfer t hsp
          exact ⟨x, Or.inl ⟨by simpa using hm, Or.inl (Or.inl (Or.inl (by simpa using hx)))⟩⟩
      | false =>
          refine hold ?_ (by simp +contextual) (by simp [hsp])
          simpa [View.transferRelease] using hw
  | grab m testing hlk hsp _ _ _ _ hp =>
      refine hold ?_ (by simp [hlk]) (by simp [hsp])
      rw [hp.v_eq] at hw
      cases testing <;> cases m <;> exact hw
  | retake hsp _ _ hp =>
      have hv := hp.v_eq
      refine hold (by rw [hv] at hw; exact hw) ?_ (by simp [hsp])
      cases hp <;> simp +contextual
  | next hp =>
      have hv := hp.v_eq
      refine hold (by rw [hv] at hw; exact hw) ?_ (by simp [hp.spin_cases.1])
      cases hp <;> simp +contextual
  | release m | muRelease m =>
      exact hold (by cases m <;> exact hw) (by simp) fun old ho => by simpa using htr old ho
  | tryAcquire => simp [View.tryAcquire] at hw
  | setWriterWaiting htry => exact ⟨t, Or.inr htry⟩
  | tryDone m old hsp => exact back old hsp (by cases m <;> exact hw) rfl rfl
  | tryFail old hsp => exact back old hsp hw rfl rfl
  | dbgStore w hsp => exact (hdbg w hsp).elim
  | own p tr lw w hc hmine hnew hcond htype hC htry =>
      exact hold hw (by simp +contextual) fun old ho => by simpa using htry (htr old ho)
  | stutter | dequeue | wake | select | cvWake | mutate => exact hold hw (by simp +contextual) htr
  | _ => exact hold hw (by simp +contextual) fun old ho => by simpa using htr old ho

theorem step (h : Founded a) (hs : AStep E C t a a') (hi : AInv E C a) (hi' : AInv E C a')
    (hdbg : ∀ w, (a.th t).spin ≠ .dbg w)
    (hcas : ∀ old, (∀ o, (a.th t).spin ≠ .hold o) → (a'.th t).spin = .hold old →
      a.v.writerWaiting = true → ∃ x, a.StandsWithout t x) : Founded a' where
  word := h.step_word hs hi hi' hdbg
  hold _ _ := h.step_hold hs hi hi' hcas

end Founded

/-! ## The CAS after a timeout -/

section

variable {s s' : State T σ} {act : Act σ} {old : Word}

omit [DecidableEq T] in
/-- Both locks are held in `mu_try_acquire_after_timeout_or_cancel` only. -/
theorem Pc.muWait_of_hold {p : Pc T} (h : p.spinRole = .hold old) :
    ∃ l q, p = .muWait l q := by
  cases p with
  | muWait l q => exact ⟨l, q, rfl⟩
  | lockSlow l k q => cases q <;> cases h
  | unlockSlow m k q =>
      cases q <;> simp only [Pc.spinRole, reduceCtorEq] at h
      all_goals split at h <;> cases h
  | wakeWaiters l q => cases q <;> cases h
  | debug l q =>
      obtain ⟨held, _ | c, b⟩ := l <;> cases q <;> cases h
  | _ => cases h

theorem muWait_hold_new {l : MuWait} {ch : Choice} {p : MuWaitPc}
    (hs : muWaitWithDeadline E s t l ch p = some s')
    (hnew : ∀ o, Pc.spinRole (T := T) (.muWait l p) ≠ .hold o)
    (hold : (s'.pc t).spinRole = .hold old) : p = .tryAcquire old ∧ s.word = old := by
  rcases p with _ | _ | _ | _ | ⟨_ | _⟩ | ⟨_ | _⟩ | _ | _ | _ | _ | old' | _ | _ | _ | ⟨_, _ | _⟩ |
      _ | _ | _ | _ <;>
    simp only [muWaitWithDeadline, startLockSlow] at hs
  case tryAcquire =>
    split at hs
    · next heq =>
        cases hs
        rw [State.setPc_self] at hold
        cases hold
        exact ⟨rfl, heq⟩
    · split at hs <;> cases hs <;> rw [State.setPc_self] at hold <;> cases hold
  case sem =>
    cases ch <;> simp only [semWaitWithCancel, semP] at hs <;> split at hs <;> cases hs <;>
      rw [State.setPc_self] at hold <;> cases hold
  all_goals first | exact (hnew _ rfl).elim | skip
  all_goals repeat' split at hs
  all_goals
    cases hs
    try rw [State.setPc_self] at hold
    cases hold

theorem step_hold_new {w : Waiter} (hok : (s.pc t).Ok C w) (hs : step E t act s = some s')
    (hnew : ∀ o, (s.pc t).spinRole ≠ .hold o) (hold : (s'.pc t).spinRole = .hold old) :
    ∃ l, s.pc t = .muWait l (.tryAcquire old) ∧ s.word = old := by
  obtain ⟨l', q, hpc'⟩ := Pc.muWait_of_hold hold
  have hq : q.entry = false := by
    rw [hpc'] at hold
    cases q <;> first | rfl | cases hold
  rcases step_inMuWait hok hs hpc' hq with ⟨ch, l, p, rfl, hpc, hs'⟩ | rfl
  · rw [hpc] at hnew
    obtain ⟨rfl, hw⟩ := muWait_hold_new hs' hnew hold
    exact ⟨l, hpc, hw⟩
  · cases hs
    exact (hnew old hold).elim

end

/-! ## Runs -/

section

variable {s s' : State T σ} {loc : T → Loc T} {y : σ}

/-- A writer that is on the queue, also while an unlocker has taken the queue for
itself, or about to be put there, or that `nsync_mu_unlock_slow_` has taken off
the queue and that has since neither acquired nor queued itself again. -/
def State.WriterAround (s : State T σ) (u : T) : Prop :=
  (s.wtr u).lType = .writer ∧
    (u ∈ s.waiters ∨ (∃ v, u ∈ (s.pc v).priv) ∨ (s.pc u).spinRole = .ins ∨ s.dequeued u = true)

/-- `MU_WRITER_WAITING` can be set for the sake of thread `u`. -/
def State.Stands (s : State T σ) (u : T) : Prop :=
  s.WriterAround u ∨ (s.pc u).trying = true

/-- If the step is the CAS of `mu_try_acquire_after_timeout_or_cancel` and it
succeeds with `MU_WRITER_WAITING` set, the bit stands for somebody else, or for
this thread as a writer that is being woken. -/
def Backed (t : T) (act : Act σ) (s : State T σ) : Prop :=
  match act, s.pc t with
  | .step _, .muWait _ (.tryAcquire old) => s.word = old → old &&& muWriterWaiting ≠ 0#32 →
      (∃ u, u ≠ t ∧ s.Stands u) ∨ (s.wtr t).lType = .writer ∧ s.dequeued t = true
  | _, _ => True

variable [Fintype T]

/-- Regular calls, in which no timed out waiter writes back a bit of its own. -/
def RegularBacked (t : T) (act : Act σ) (s : State T σ) : Prop := Regular t act s ∧ Backed t act s

omit [DecidableEq T] in
theorem Good.writerAround_iff (h : Good E C s loc) :
    s.WriterAround u ↔ (s.abs loc).WriterAround u := by
  have hq : (u ∈ s.waiters ∨ ∃ v, u ∈ (s.pc v).priv) ↔ (loc u).Queued := by
    rw [h.lists.muQ.mem]
    exact or_congr Iff.rfl (exists_congr fun v => (h.lists.priv v).mem u)
  have hd : s.dequeued u = true ↔ (loc u).Dequeued := h.inv.place.deq u
  refine and_congr Iff.rfl ?_
  rw [← or_assoc, hq, ← or_assoc, hd]
  exact Iff.rfl

omit [DecidableEq T] in
theorem Good.stands_iff (h : Good E C s loc) : s.Stands u ↔ (s.abs loc).Stands u :=
  or_congr h.writerAround_iff Iff.rfl

/-- Every step keeps the bit founded. -/
theorem founded_step {act : Act σ} (h : Founded (s.abs loc)) (hg : Good E C s loc)
    {loc' : T → Loc T} (hg' : Good E C s' loc') (hstep : AStep E C t (s.abs loc) (s'.abs loc'))
    (hop : (s.pc t).op ≠ .debug) (hb : Backed t act s) (hs : step E t act s = some s') :
    Founded (s'.abs loc') := by
  refine h.step hstep hg.inv hg'.inv (Pc.spinRole_ne_dbg hop) fun old hnew hold hw => ?_
  obtain ⟨l, hpc, hword⟩ := step_hold_new (hg.pcs t).ok hs hnew hold
  have hact : ∃ ch, act = .step ch := by
    cases act with
    | post =>
        cases hs
        exact (hnew old hold).elim
    | call c => simp [step, hpc] at hs
    | step ch => exact ⟨ch, rfl⟩
  obtain ⟨ch, rfl⟩ := hact
  simp only [Backed, hpc] at hb
  have hw' : old &&& muWriterWaiting ≠ 0#32 := by
    rw [← hword, ne_eq, and_muWriterWaiting, Bool.not_eq_false]
    exact hw
  rcases hb hword hw' with ⟨u, hut, hu⟩ | ⟨hm, hd⟩
  · exact ⟨u, Or.inl ⟨hut, hg.stands_iff.mp hu⟩⟩
  · exact ⟨t, Or.inr ⟨hm, (hg.inv.place.deq t).mp hd⟩⟩

theorem Reachable.founded (h : Reachable E RegularBacked y s) :
    ∃ loc, Good E (fun _ => True) s loc ∧ Founded (s.abs loc) := by
  refine h.invariant
    (I := fun s => ∃ loc, Good E (fun _ => True) s loc ∧ Founded (s.abs loc))
    ⟨_, Good.initial E _ y, ⟨fun hw => ?_, fun u old hold => ?_⟩⟩ ?_
  · simp [State.abs, initial, view] at hw
  · simp [State.abs, initial, Pc.abs, Pc.spinRole] at hold
  · rintro t act s₁ s₂ hr ⟨loc, hg, hf⟩ ⟨hreg, hb⟩ hs
    have hdbg := (hr.good_of_noDebug (C := fun _ => True) fun _ a _ hP =>
      ⟨a.condIn_true, hP.1.1, hP.1.2⟩).2
    obtain ⟨loc', hstep, hg'⟩ := step_simulates hg hreg.2 act.condIn_true hs
    have hg' := hg' fun u w _ hw => (Pc.spinRole_ne_dbg (hdbg u) w hw).elim
    exact ⟨loc', hg', founded_step hf hg hg' hstep (hdbg t) hb hs⟩

omit [Fintype T] in
/-- A thread that runs alone acquires a read lock if nothing in the word holds
readers off. -/
theorem reader_acquires (hpc : s.pc t = .client none)
    (hfree : s.word &&& muRzeroToAcquire = 0#32) {c : Call σ}
    (hc : c = .lock .reader ∨ c = .tryLock .reader) :
    ∃ s₁ s₂, step E t (.call c) s = some s₁ ∧
      Runs E (fun u act _ => u = t ∧ act = .step .run) s₁ s₂ ∧ s₂.pc t = .client (some .reader) := by
  obtain ⟨b, hcall⟩ : ∃ b, step E t (.call c) s = some (s.setPc t (.lock .reader b .ret .cas0)) := by
    rcases hc with rfl | rfl
    · exact ⟨false, by simp [step, hpc, callStep]⟩
    · exact ⟨true, by simp [step, hpc, callStep]⟩
  have hstep : ∀ (s₁ : State T σ) (p : LockPc),
      step E t (.step .run) (s₁.setPc t (.lock .reader b .ret p)) =
        some (muLock (s₁.setPc t (.lock .reader b .ret p)) t .reader b .ret p) := by
    intro s₁ p
    simp only [step, State.setPc_self]
  have h₁ := hstep s .cas0
  by_cases h0 : s.word = 0#32
  · rw [muLock, if_pos (show (s.setPc t _).word = 0#32 from h0)] at h₁
    exact ⟨_, _, hcall, Runs.snoc .start ⟨rfl, rfl⟩ h₁, State.setPc_self ..⟩
  · rw [muLock, if_neg (show ¬ (s.setPc t _).word = 0#32 from h0)] at h₁
    have h₂ := hstep (s.setPc t (.lock .reader b .ret .cas0)) .load
    rw [muLock, if_pos (show ((s.setPc t _).setPc t _).word &&& Mode.reader.lockType.zeroToAcquire =
      0#32 from hfree)] at h₂
    have h₃ := hstep ((s.setPc t (.lock .reader b .ret .cas0)).setPc t (.lock .reader b .ret .load))
      (.cas s.word)
    rw [muLock, if_pos (show (((s.setPc t _).setPc t _).setPc t _).word = s.word from rfl)] at h₃
    exact ⟨_, _, hcall,
      Runs.snoc (Runs.snoc (Runs.snoc .start ⟨rfl, rfl⟩ h₁) ⟨rfl, rfl⟩ h₂) ⟨rfl, rfl⟩ h₃,
      State.setPc_self ..⟩

/-- In every run in which no timed out waiter writes back a bit that stood for
itself alone, `MU_WRITER_WAITING` is set only for the sake of somebody.  When
there is no such thread and the mutex is free, a reader that arrives acquires at
once, unless `MU_LONG_WAIT` holds it off. -/
theorem writer_waiting_stands (h : Reachable E RegularBacked y s) :
    (s.word &&& muWriterWaiting ≠ 0#32 → ∃ u, s.Stands u) ∧
    ((∀ u, ¬ s.Stands u) → s.word &&& muAnyLock = 0#32 → s.word &&& muLongWait = 0#32 →
      ∀ t c, s.pc t = .client none → c = .lock .reader ∨ c = .tryLock .reader →
      ∃ s₁ s₂, step E t (.call c) s = some s₁ ∧
        Runs E (fun u act _ => u = t ∧ act = .step .run) s₁ s₂ ∧
        s₂.pc t = .client (some .reader)) := by
  obtain ⟨loc, hg, hf⟩ := h.founded
  have hstands : s.word &&& muWriterWaiting ≠ 0#32 → ∃ u, s.Stands u := by
    intro hw
    rw [ne_eq, and_muWriterWaiting, Bool.not_eq_false] at hw
    obtain ⟨u, hu⟩ := hf.word hw
    exact ⟨u, hg.stands_iff.mpr hu⟩
  refine ⟨hstands, fun hnone hfree hlong t c hpc hc => reader_acquires hpc ?_ hc⟩
  have hw : s.word &&& muWriterWaiting = 0#32 := by
    by_contra hw
    obtain ⟨u, hu⟩ := hstands hw
    exact hnone u hu
  rw [and_muAnyLock] at hfree
  rw [and_muLongWait] at hlong
  rw [and_muWriterWaiting] at hw
  exact (and_zeroToAcquire s.word .reader).mpr ⟨hfree.1, fun _ => ⟨hw, hlong⟩⟩

instance (s : State T σ) (u : T) : Decidable (s.WriterAround u) :=
  inferInstanceAs (Decidable (_ ∧ _))

instance (s : State T σ) (u : T) : Decidable (s.Stands u) := inferInstanceAs (Decidable (_ ∨ _))

instance (t : T) (act : Act σ) (s : State T σ) : Decidable (Backed t act s) := by
  unfold Backed
  split <;> infer_instance

instance (t : T) (act : Act σ) (s : State T σ) : Decidable (RegularBacked t act s) :=
  inferInstanceAs (Decidable (_ ∧ _))

/-- A writer sleeps on the queue while a reader holds the mutex. -/
def readerWriterRun : List (Fin 3 × Act Bool) :=
  [(0, .call (.lock .reader))] ++ goOn 0 1 ++ [(1, .call (.lock .writer))] ++ goOn 1 8

theorem writer_waiting_readerWriterRun : ∃ s : State (Fin 3) Bool,
    Reachable flagEnv RegularBacked false s ∧ s.word &&& muWriterWaiting ≠ 0#32 ∧
    ∃ u, s.Stands u := by
  obtain ⟨s, hs, hf⟩ := Reachable.exists_of_exec (E := flagEnv) (P := RegularBacked) (x := false)
    readerWriterRun (fun s => decide (s.word &&& muWriterWaiting ≠ 0#32)) (by decide +kernel)
  have hw := of_decide_eq_true hf
  exact ⟨s, hs, hw, (writer_waiting_stands hs).1 hw⟩

/-- A reader waits for a condition with a deadline, is skipped by an unlocker
that finds the condition false, times out while another reader holds the mutex,
and sets the bit.  Then it acquires and writes the bit back.  When both readers
are done a third one finds the mutex free, and goes to sleep. -/
def writtenBackRun : List (Fin 3 × Act Bool) :=
  List.flatten
    [[(0, .call (.lock .reader))], goOn 0 1,
      [(0, .call (.muWait (some ⟨1, 2, none⟩) true))], goOn 0 9,
      [(1, .call (.lock .reader))], goOn 1 3, [(1, .call (.unlock .runlock))], goOn 1 12,
      [(1, .call (.lock .reader))], goOn 1 3, [(0, .step .timeout)], goOn 0 3,
      [(1, .call (.unlock .runlock))], goOn 1 3, goOn 0 11,
      [(0, .call (.unlock .runlock))], goOn 0 3, [(2, .call (.lock .reader))], goOn 2 8]

theorem writer_waiting_written_back : ∃ s : State (Fin 3) Bool, Reachable flagEnv Regular false s ∧
    s.word &&& muWriterWaiting ≠ 0#32 ∧ (∀ u, ¬ s.Stands u) ∧
    s.word &&& (muAnyLock ||| muLongWait) = 0#32 ∧ s.pc 0 = .client none ∧ s.pc 1 = .client none ∧
    (s.pc 2).sleeping = true ∧ step flagEnv 2 (.step .run) s = none := by
  obtain ⟨s, hs, hf⟩ := Reachable.exists_of_exec (E := flagEnv) (P := Regular) (x := false)
    writtenBackRun (fun s => decide (s.word &&& muWriterWaiting ≠ 0#32 ∧ (∀ u, ¬ s.Stands u) ∧
      s.word &&& (muAnyLock ||| muLongWait) = 0#32 ∧ s.pc 0 = .client none ∧
      s.pc 1 = .client none ∧ (s.pc 2).sleeping = true ∧
      (step flagEnv 2 (.step .run) s).isNone = true)) (by decide +kernel)
  obtain ⟨hw, hst, hfree, h0, h1, h2, hblocked⟩ := of_decide_eq_true hf
  exact ⟨s, hs, hw, hst, hfree, h0, h1, h2, Option.isNone_iff_eq_none.mp hblocked⟩

end

end Nsync.Mu
