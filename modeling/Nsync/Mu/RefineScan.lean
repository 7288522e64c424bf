import Nsync.Mu.RefineUnlock

/-!
# The wake-up scan refines the protocol

The paths of `nsync_mu_unlock_slow_` that take the spinlock, look for waiters to
wake, and wake them.
-/

namespace Nsync.Mu

open Nsync.Lib

variable {T σ : Type} [DecidableEq T] {E : Env σ} {C : WaitCondition → Prop}
  {s : State T σ} {loc : T → Loc T} {t : T} {m : Mode} {k : UnlockCont} {sc : Scan T}

omit [DecidableEq T] in
theorem PcOk.of_scan {p : Pc T} {done rest : List T} (hp : s.pc t = p) (hok : p.Ok C (s.wtr t))
    (ht : p.target = none) (hsc : p.scan? = some sc) (hinv : ScanInv E C s sc done rest)
    (hplace : p.ScanPlace s.wtr) : PcOk E C s t := by
  refine ⟨hp ▸ hok, by simp [hp, ht], fun sc' hsc' => ?_, hp ▸ hplace⟩
  rw [hp, hsc] at hsc'
  cases hsc'
  exact ⟨done, rest, hinv⟩

/-! ## The head of the outer loop -/

/-- What a thread knows at the head of the outer loop of the scan. -/
structure ScanHead (E : Env σ) (C : WaitCondition → Prop) (s : State T σ) (sc : Scan T) :
    Prop where
  new : sc.newWaiters = []
  late : sc.testing = true → sc.late = true
  noCond : sc.late = false → ∀ y ∈ sc.waiters ++ s.waiters, (s.wtr y).cond = none
  falseDone : sc.setAllFalse = true → ∀ y ∈ sc.waiters, FalseAt E C s.wtr s.prot y
  writer : sc.setWriterWaiting = true → ∃ y ∈ sc.waiters, (s.wtr y).lType = .writer
  untested : sc.testing = false → sc.late = true → s.waiters = []
  wake : sc.wakeType = none ↔ sc.wake = []
  allFalse : sc.wakeType = none → sc.setAllFalse = true

/-- The locals of the next round over the waiters `ws`. -/
def Scan.round (sc : Scan T) (testing : Bool) (ws : List T) : Scan T :=
  { sc with testing := testing, newWaiters := ws, p := ws.head? }

/-- Where the next round begins. -/
def Scan.roundPc (sc : Scan T) : UnlockSlowPc T :=
  if sc.testing then .scanRelease sc .load else .scan sc

/-- What decides the last CAS after a scan. -/
def Scan.release (sc : Scan T) : Release T where
  late := sc.late
  setWriterWaiting := sc.setWriterWaiting
  setAllFalse := sc.setAllFalse
  noneLeft := sc.waiters.isEmpty
  wake := sc.wake

theorem scanNext_nil (hw : s.waiters = []) :
    scanNext s t m k sc =
      { s.setPc t (.unlockSlow m k (.final sc.release .load)) with waiters := sc.waiters } := by
  rw [scanNext, hw]
  rfl

theorem scanNext_cons (t : T) (m : Mode) (k : UnlockCont) (sc : Scan T) {p : T} {rest : List T}
    (hw : s.waiters = p :: rest) :
    ∃ testing, (testing = true → sc.testing = true) ∧
      (testing = false → sc.testing = false ∨ sc.wakeType = some .writer ∨
        (sc.wakeType = none ∧ (s.wtr p).lType = .writer ∧ (s.wtr p).cond = none)) ∧
      scanNext s t m k sc =
        { s.setPc t (.unlockSlow m k (sc.round testing s.waiters).roundPc) with waiters := [] } := by
  refine ⟨sc.testing && !(sc.wakeType == some .writer) &&
    !(sc.wakeType == none && (s.wtr p).lType == .writer && (s.wtr p).cond == none), ?_, ?_, ?_⟩
  · simp only [Bool.and_eq_true]
    exact fun h => h.1.1
  · simp only [Bool.and_eq_false_iff, Bool.not_eq_false', Bool.and_eq_true, beq_iff_eq]
    tauto
  · rw [scanNext, hw]
    rfl

theorem scanNext_setPc (p : Pc T) : scanNext (s.setPc t p) t m k sc = scanNext s t m k sc := by
  have hw : (s.setPc t p).waiters = s.waiters := rfl
  cases hs : s.waiters with
  | nil =>
      rw [scanNext_nil hs, scanNext_nil (hw.trans hs)]
      simp [State.setPc]
  | cons q rest =>
      simp only [scanNext, hw, hs]
      simp [State.setPc]

theorem scanNext_pc_of_ne {u : T} (hu : u ≠ t) : (scanNext s t m k sc).pc u = s.pc u := by
  cases hs : s.waiters with
  | nil =>
      rw [scanNext_nil hs]
      simp [State.setPc, hu]
  | cons q rest =>
      obtain ⟨b, -, -, heq⟩ := scanNext_cons t m k sc hs
      rw [heq]
      simp [State.setPc, hu]

theorem Pick.of_eq {a b a' : AState T σ} (h : Pick E C t a b) (he : a' = b) : Pick E C t a a' :=
  he ▸ h

/-- Exchanging two places does not matter to a third one. -/
theorem Loc.ite_eq_iff {x l a b : Loc T} (ha : a ≠ l) (hb : b ≠ l) :
    (if x = a then b else x) = l ↔ x = l := by
  split
  · next hx => simp [hx, ha, hb]
  · rfl

/-- What holds after the head of the outer loop, whichever way it goes. -/
def ScanNext (E : Env σ) (C : WaitCondition → Prop) (t : T) (s : State T σ) (loc : T → Loc T)
    (s' : State T σ) : Prop :=
  ∃ loc', Pick E C t (s.abs loc) (s'.abs loc') ∧ Lists s' loc' ∧ PcOk E C s' t ∧ RingInv E C s'

omit [DecidableEq T] in
/-- A new round starts with all its waiters to come. -/
theorem ScanHead.round {s' : State T σ} {p : T} {rest : List T} {testing : Bool}
    (hh : ScanHead E C s sc)
    (hw : s.waiters = p :: rest) (htest : testing = true → sc.testing = true)
    (huntest : testing = false → sc.testing = false ∨ sc.wakeType = some .writer ∨
      (sc.wakeType = none ∧ (s.wtr p).lType = .writer ∧ (s.wtr p).cond = none))
    (hwtr : s'.wtr = s.wtr) (hprot : s'.prot = s.prot) (hnil : s'.waiters = []) :
    ScanInv E C s' (sc.round testing s.waiters) [] s.waiters := by
  refine ⟨rfl, rfl, fun ht => hh.late (htest ht), ?_, ?_, ?_, fun ht => ⟨hnil, ?_⟩, hh.wake,
    hh.allFalse⟩
  · rw [hwtr]
    exact hh.noCond
  · rw [List.append_nil, hwtr, hprot]
    exact hh.falseDone
  · rw [List.append_nil, hwtr]
    exact hh.writer
  · rw [hwtr]
    rcases huntest ht with ht | hwt | ⟨hwt, hm, hc⟩
    · cases hl : sc.late with
      | true =>
          have := hh.untested ht hl
          rw [hw] at this
          cases this
      | false => exact Or.inr (Or.inl fun y hy => hh.noCond hl y (by simp [hy]))
    · exact Or.inl hwt
    · exact Or.inr (Or.inr ⟨hwt, p, by simp [Scan.round, hw], hm, hc⟩)

/-- The waiters that have arrived become the new waiters of the scan. -/
theorem scanNext_pick {p : T} {rest : List T}
    (hpc : s.pc t = .unlockSlow m k (.scanRelease sc .load)) (hl : Lists s loc)
    (hr : RingInv E C s) (hk : k.Ok C m (s.wtr t)) (hh : ScanHead E C s sc)
    (hw : s.waiters = p :: rest) : ScanNext E C t s loc (scanNext s t m k sc) := by
  obtain ⟨testing, htest, huntest, heq⟩ := scanNext_cons t m k sc hw
  rw [heq]
  have hpriv : (s.pc t).priv = sc.waiters := by
    simp [hpc, Pc.priv, Pc.scanOld, Pc.scanNew, Pc.scan?, hh.new]
  generalize hpc' : Pc.unlockSlow m k (sc.round testing s.waiters).roundPc = pc'
  have hfacts : pc'.scan? = some (sc.round testing s.waiters) ∧ pc'.abs = (s.pc t).abs ∧
      pc'.scanOld = sc.waiters ∧ pc'.scanNew = s.waiters ∧ pc'.wake = sc.wake ∧ pc'.toWake = [] ∧
      pc'.target = none ∧ pc'.Ok C (s.wtr t) ∧ pc'.ScanPlace s.wtr := by
    rw [← hpc', hpc]
    cases testing with
    | true => exact ⟨rfl, rfl, rfl, rfl, rfl, rfl, rfl, ⟨hk, trivial⟩, rfl⟩
    | false => exact ⟨rfl, rfl, rfl, rfl, rfl, rfl, rfl, ⟨hk, trivial⟩, trivial⟩
  obtain ⟨hscan, habs, hold, hnew, hwake, htw, htarget, hok, hplace⟩ := hfacts
  have hself : (s.setPc t pc').pc t = pc' := Function.update_self ..
  have hne : ∀ u, u ≠ t → ((s.setPc t pc').pc u).lists = (s.pc u).lists := by
    intro u hu
    simp [State.setPc, hu]
  refine ⟨fun x => if loc x = .muQ then .priv t else loc x, ?_, ?_, ?_, ?_⟩
  · have hpick := Pick.pick (E := E) (C := C) (t := t) (a := s.abs loc)
      (by simp [State.abs, Pc.abs, hpc, Pc.region]) (by simp [State.abs, Pc.abs, hpc, Pc.spinRole])
    refine hpick.of_eq (AState.ext rfl ?_ rfl rfl rfl rfl rfl rfl)
    exact (State.abs_th rfl habs).trans (Function.update_eq_self t _)
  · refine hl.of_step hne (fun _ => rfl) ⟨fun x => ?_, List.nodup_nil⟩ ?_ ?_ ?_ ?_
    · simp only [List.not_mem_nil, false_iff]
      split
      · simp
      · assumption
    · have hp := hl.priv t
      rw [hpriv] at hp
      rw [hself, Pc.priv, hold, hnew]
      refine ⟨fun x => ?_, List.nodup_append.mpr ⟨hp.nodup, hl.muQ.nodup, ?_⟩⟩
      · rw [List.mem_append, hp.mem, hl.muQ.mem]
        split <;> simp_all
      · rintro x hx y hy rfl
        simpa [(hp.mem x).mp hx] using (hl.muQ.mem x).mp hy
    · have hwk := hl.wake t
      rw [hpc] at hwk
      rw [hself, hwake]
      exact hwk.congr fun x => Loc.ite_eq_iff (by simp) (by simp)
    · have hwk := hl.toWake t
      rw [hpc] at hwk
      rw [hself, htw]
      exact hwk.congr fun x => Loc.ite_eq_iff (by simp) (by simp)
    · exact fun x l h1 h2 _ _ _ => Loc.ite_eq_iff (by grind) (by grind)
  · exact PcOk.of_scan hself hok htarget hscan (hh.round hw htest huntest rfl rfl rfl) hplace
  · refine hr.of_step (t := t) (k := []) hne (fun _ _ => ⟨rfl, rfl⟩) (by simp) (fun _ _ _ _ => rfl)
      .nil ?_ ?_ ?_
    · have hseg := hr.old t
      rw [hpc] at hseg
      rw [hself, hold]
      exact hseg
    · rw [hself, hnew]
      exact hr.muQ
    · intro x _ hx _ hx'
      rw [hself, Pc.priv, hold, hnew, List.mem_append, not_or] at hx
      rw [hpriv] at hx'
      simp_all

/-- The waiters that are left go back to the queue. -/
theorem scanNext_giveBack (hpc : s.pc t = .unlockSlow m k (.scanRelease sc .load))
    (hl : Lists s loc) (hr : RingInv E C s) (hk : k.Ok C m (s.wtr t)) (hh : ScanHead E C s sc)
    (hw : s.waiters = []) : ScanNext E C t s loc (scanNext s t m k sc) := by
  rw [scanNext_nil hw]
  have hpriv : (s.pc t).priv = sc.waiters := by
    simp [hpc, Pc.priv, Pc.scanOld, Pc.scanNew, Pc.scan?, hh.new]
  have hp := hl.priv t
  rw [hpriv] at hp
  have hmu := hl.muQ
  rw [hw] at hmu
  have hnone : ∀ x, loc x ≠ .muQ := fun x hx => by simpa using (hmu.mem x).mpr hx
  have hwk := hl.wake t
  rw [hpc] at hwk
  have hself : (s.setPc t (.unlockSlow m k (.final sc.release .load))).pc t =
      .unlockSlow m k (.final sc.release .load) := Function.update_self ..
  have hne : ∀ u, u ≠ t →
      ((s.setPc t (.unlockSlow m k (.final sc.release .load))).pc u).lists = (s.pc u).lists := by
    intro u hu
    simp [State.setPc, hu]
  have hback : ∀ x, (if loc x = .priv t then Loc.muQ else loc x) = .muQ ↔ x ∈ sc.waiters := by
    intro x
    rw [hp.mem]
    split <;> simp_all
  have hwake : ∀ x, (if loc x = .priv t then Loc.muQ else loc x) = .wake t ↔ x ∈ sc.wake := by
    intro x
    exact (Loc.ite_eq_iff (by simp) (by simp)).trans (hwk.mem x).symm
  refine ⟨fun x => if loc x = .priv t then .muQ else loc x, ?_, ?_, ?_, ?_⟩
  · have hf : FinOk E C ((s.abs loc).giveBack t) t sc.release := by
      refine ⟨?_, fun h => ?_, ?_, fun h x hx => ?_, fun h x hx => ?_, ?_, fun h => ?_⟩
      · simp only [State.abs, AState.giveBack, hpc]
        rfl
      · obtain ⟨y, hy, hm⟩ := hh.writer h
        exact ⟨y, (hback y).mpr hy, hm⟩
      · change sc.waiters.isEmpty = true ↔ ∀ x, (if loc x = .priv t then Loc.muQ else loc x) ≠ .muQ
        simp only [ne_eq, hback, List.isEmpty_iff, List.eq_nil_iff_forall_not_mem]
      · exact hh.falseDone h x ((hback x).mp hx)
      · exact hh.noCond h x (by simp [(hback x).mp hx])
      · change sc.wake = [] ↔ ∀ x, (if loc x = .priv t then Loc.muQ else loc x) ≠ .wake t
        simp only [ne_eq, hwake, List.eq_nil_iff_forall_not_mem]
      · exact hh.allFalse (hh.wake.mpr h)
    have hgive := Pick.giveBack (E := E) (C := C) (t := t) (a := s.abs loc) sc.release
      (by simp [State.abs, Pc.abs, hpc, Pc.region]) (by simp [State.abs, Pc.abs, hpc, Pc.spinRole])
      hnone hf
    refine hgive.of_eq (AState.ext rfl ?_ rfl rfl rfl rfl rfl rfl)
    refine State.abs_th (p := .unlockSlow m k (.final sc.release .load)) rfl ?_
    simp only [State.abs, hpc]
    rfl
  · refine hl.of_step hne (fun _ => rfl) ⟨fun x => (hback x).symm, hp.nodup⟩ ?_ ?_ ?_ ?_
    · rw [hself]
      refine ⟨fun x => ?_, List.nodup_nil⟩
      simp only [Pc.priv, Pc.scanOld, Pc.scanNew, Pc.scan?, Option.elim_none, List.append_nil,
        List.not_mem_nil, false_iff]
      split <;> simp_all
    · rw [hself]
      exact ⟨fun x => (hwake x).symm, hwk.nodup⟩
    · rw [hself]
      have htw := hl.toWake t
      rw [hpc] at htw
      exact htw.congr fun x => Loc.ite_eq_iff (by simp) (by simp)
    · exact fun x l h1 h2 _ _ _ => Loc.ite_eq_iff (by grind) (by grind)
  · exact PcOk.of_ok (p := .unlockSlow m k (.final sc.release .load)) hself ⟨hk, trivial⟩ rfl rfl
  · refine hr.of_step (t := t) (k := []) hne (fun _ _ => ⟨rfl, rfl⟩) (by simp) (fun _ _ _ _ => rfl)
      ?_ (by rw [hself]; exact .nil) (by rw [hself]; exact .nil) ?_
    · have hseg := hr.old t
      rw [hpc] at hseg
      exact hseg
    · intro x hx _ _ hx'
      rw [hpriv, hw] at hx'
      simp_all

theorem scanNext_spec (hpc : s.pc t = .unlockSlow m k (.scanRelease sc .load))
    (hl : Lists s loc) (hr : RingInv E C s) (hk : k.Ok C m (s.wtr t)) (hh : ScanHead E C s sc) :
    ScanNext E C t s loc (scanNext s t m k sc) := by
  cases hw : s.waiters with
  | nil => exact scanNext_giveBack hpc hl hr hk hh hw
  | cons p rest => exact scanNext_pick hpc hl hr hk hh hw

variable [Fintype T]

/-- A step that ends at the head of the outer loop; `s₁` is the state there but
for the program counter of `t`. -/
theorem Good.scanNext (h : Good E C s loc) {s₁ s₀ : State T σ}
    (hs₀ : s₀ = s₁.setPc t (.unlockSlow m k (.scanRelease sc .load)))
    (hstep : ∀ a', Pick E C t (s₀.abs loc) a' → AStep E C t (s.abs loc) a')
    (hpcs : s₁.pc = s.pc) (hl : Lists s₀ loc) (hr : RingInv E C s₀)
    (hk : k.Ok C m (s₀.wtr t)) (hh : ScanHead E C s₀ sc) :
    Simulates E C t s loc (scanNext s₁ t m k sc) := by
  have hpc : s₀.pc t = .unlockSlow m k (.scanRelease sc .load) := by simp [hs₀, State.setPc]
  obtain ⟨loc', hpick, hl', hok', hr'⟩ := scanNext_spec hpc hl hr hk hh
  rw [hs₀, scanNext_setPc, ← hs₀] at hpick
  rw [hs₀, scanNext_setPc] at hl' hok' hr'
  refine h.next loc' (hstep _ hpick) (fun u hu => ?_) hl' hok' hr'
  rw [scanNext_pc_of_ne hu, hpcs]

/-- The CAS that takes the spinlock to look for waiters. -/
theorem Good.grab (h : Good E C s loc) {old : Word}
    (hpc : s.pc t = .unlockSlow m k (.grab old)) (hword : s.word = old) {testing : Bool}
    (htest : testing = decide (old &&& muCondition ≠ 0#32)) :
    Simulates E C t s loc (Nsync.Mu.scanNext (s.setWord (grabWord m testing old)) t m k
      { testing := testing, late := testing, waiters := [], newWaiters := [], p := none,
        wake := [], wakeType := none, setWriterWaiting := false, setAllFalse := true }) := by
  subst hword
  obtain ⟨hk, hv, hspin⟩ : Pc.Ok C (s.wtr t) (.unlockSlow m k (.grab s.word)) :=
    hpc ▸ (h.pcs t).ok
  have hlock : ((s.abs loc).th t).lock = some m := by
    simp only [State.abs, hpc]
    rfl
  have hshare : (view s.word).HasShare m := h.inv.lock.shares.hasShare hlock
  have hreader : m = .reader → (view s.word).wlock = false := by
    rintro rfl
    exact h.inv.lock.shares.reader_wlock hlock
  have hcond : testing = (view s.word).cond := by
    simp only [htest, ne_eq, and_muCondition, Bool.not_eq_false, Bool.decide_eq_true]
  have hlists : ∀ u, ((Function.update s.pc t (.unlockSlow m k (.scanRelease
      { testing := testing, late := testing, waiters := [], newWaiters := [], p := none,
        wake := [], wakeType := none, setWriterWaiting := false, setAllFalse := true } .load))) u).lists
      = (s.pc u).lists :=
    Pc.lists_set (by rw [hpc]; rfl)
  refine h.scanNext rfl (fun a' hp => ?_) rfl (h.lists.congr hlists rfl (fun _ => rfl)
    fun _ => Or.inl rfl) (h.rings.congr (fun u => (Pc.lists_eq (hlists u)).1)
      (fun u => (Pc.lists_eq (hlists u)).2.1) rfl rfl fun _ _ => rfl) hk ?_
  · refine AStep.grab m testing hlock ?_ ?_ hspin hv hcond ?_
    · simp only [State.abs, hpc]
      rfl
    · simp only [State.abs, hpc]
      rfl
    · convert hp using 1
      refine AState.ext (view_grabWord hshare hreader).symm (State.abs_th rfl ?_).symm rfl rfl rfl
        rfl rfl rfl
      simp only [State.abs, hpc]
      rfl
  · refine ⟨rfl, id, fun hl y hy => ?_, by simp, by simp, ?_, by simp, by simp⟩
    · have hmu := (h.lists.muQ.mem y).mp hy
      by_contra hc
      have := h.inv.queue.cond y (Or.inl hmu) hc
      rw [show (s.abs loc).v.cond = (view s.word).cond from rfl, ← hcond] at this
      simp_all
    · intro hf ht
      simp_all

omit [DecidableEq T] [Fintype T] in
/-- What the scan knows once the new waiters have joined the others. -/
theorem ScanInv.append {s' : State T σ} {done rest : List T} (hinv : ScanInv E C s sc done rest)
    (hall : sc.setAllFalse = true → sc.p = none) (hwtr : s'.wtr = s.wtr)
    (hprot : s'.prot = s.prot) (hw : s'.waiters = s.waiters) : ScanHead E C s'
      { sc with waiters := sc.waiters ++ sc.newWaiters, newWaiters := [], p := none } := by
  have hsub : ∀ y ∈ sc.waiters ++ done, y ∈ sc.waiters ++ sc.newWaiters := by
    intro y hy
    rw [hinv.split]
    simp only [List.mem_append] at hy ⊢
    tauto
  refine ⟨rfl, hinv.late, ?_, ?_, ?_, ?_, hinv.wake, hinv.allFalse⟩
  · rw [hwtr, hw]
    intro hl y hy
    rcases List.mem_append.mp hy with hy | hy
    · exact hinv.noCond hl y hy
    · have ht : sc.testing = false := by
        by_contra ht
        rw [Bool.not_eq_false] at ht
        rw [hinv.late ht] at hl
        cases hl
      rw [(hinv.untested ht).1] at hy
      cases hy
  · rw [hwtr, hprot]
    intro hf y hy
    refine hinv.falseDone hf y ?_
    have hnil : rest = [] := by simpa [hall hf] using hinv.head
    rwa [hinv.split, hnil, List.append_nil] at hy
  · rw [hwtr]
    intro hww
    obtain ⟨y, hy, hm⟩ := hinv.writer hww
    exact ⟨y, hsub y hy, hm⟩
  · rw [hw]
    exact fun ht _ => (hinv.untested ht).1

/-- The end of a round: `s₁` is `s` but for the word. -/
theorem Good.scanAppend (h : Good E C s loc) {s₁ : State T σ} {w : Word} (hs₁ : s₁ = s.setWord w)
    {done rest : List T} (hlists : (s.pc t).lists = (sc.waiters, sc.newWaiters, sc.wake, []))
    (hstep : ∀ a', Pick E C t ({ s.abs loc with
        v := view w
        th := Function.update (s.abs loc).th t
          ⟨if sc.late then some .writer else none, .plain, k.phase, true, false, false, .no⟩ }) a' →
      AStep E C t (s.abs loc) a')
    (hinv : ScanInv E C s sc done rest) (hall : sc.setAllFalse = true → sc.p = none)
    (hk : k.Ok C m (s.wtr t)) : Simulates E C t s loc (scanAppend E s₁ t m k sc) := by
  subst hs₁
  have hpriv : (s.pc t).priv = sc.waiters ++ sc.newWaiters := by
    simp only [Pc.lists, Prod.mk.injEq] at hlists
    rw [Pc.priv, hlists.1, hlists.2.1]
  have hp := h.lists.priv t
  rw [hpriv] at hp
  have hold := h.rings.old t
  have hnew := h.rings.new t
  simp only [Pc.lists, Prod.mk.injEq] at hlists
  rw [hlists.1] at hold
  rw [hlists.2.1] at hnew
  have hC : ∀ x c, (s.wtr x).cond = some c → C c := h.inv.place.conds
  obtain ⟨hseg, hout⟩ := segmented_merge hC hold hnew hp.nodup
  have hne : ∀ (p : Pc T) (u : T), u ≠ t → ((Function.update s.pc t p) u).lists = (s.pc u).lists := by
    intro p u hu
    simp [hu]
  rw [Nsync.Mu.scanAppend]
  refine h.scanNext rfl (fun a' hpk => hstep a' ?_) rfl ?_ ?_ hk (hinv.append hall rfl rfl rfl)
  · convert hpk using 1
    refine AState.ext rfl (Eq.symm ?_) rfl rfl rfl rfl rfl rfl
    exact State.abs_th (s := s) rfl rfl
  · refine h.lists.of_step (t := t) (hne _) (fun _ => rfl) h.lists.muQ ?_ ?_ ?_
      fun _ _ _ _ _ _ _ => Iff.rfl
    · simpa [State.setPc, Pc.priv, Pc.scanOld, Pc.scanNew, Pc.scan?] using hp
    · rw [State.setPc_self]
      exact hlists.2.2.1 ▸ h.lists.wake t
    · have htw := h.lists.toWake t
      rw [hlists.2.2.2] at htw
      rw [State.setPc_self]
      exact htw
  · refine h.rings.of_step (t := t) (hne _) hout ?_ (fun _ _ _ _ => rfl) ?_ ?_ ?_ ?_
    · intro x hx u hu hxu
      have h1 := (hp.mem x).mp hx
      rw [((h.lists.priv u).mem x).mp hxu] at h1
      cases h1
      exact hu rfl
    · refine Segmented.keep h.rings.muQ hout (fun x hx hx' => ?_) fun _ _ => rfl
      have h1 := (h.lists.muQ.mem x).mp hx
      rw [(hp.mem x).mp hx'] at h1
      cases h1
    · rw [State.setPc_self]
      exact hseg
    · rw [State.setPc_self]
      exact .nil
    · intro x hx hx' _ hx''
      simp only [State.setPc_self, Pc.priv, Pc.scanOld, Pc.scanNew, Pc.scan?,
        Option.elim_some, List.append_nil] at hx'
      rw [hpriv] at hx''
      exact (hx''.elim hx fun hor => hor.elim hx' hx').elim

end Nsync.Mu
