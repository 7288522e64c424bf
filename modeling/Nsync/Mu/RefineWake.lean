import Nsync.Mu.RefineScan

/-!
# Choosing and waking waiters refines the protocol

The inner loop of the scan in `nsync_mu_unlock_slow_`, its last CAS and the
wake-ups, and with them the whole function.
-/

namespace Nsync.Mu

open Nsync.Lib

variable {T σ : Type} [DecidableEq T] {E : Env σ} {C : WaitCondition → Prop}
  {s : State T σ} {loc : T → Loc T} {t : T} {m : Mode} {k : UnlockCont} {sc : Scan T}
  {done rest : List T}

/-! ## The inner loop -/

namespace ScanInv

omit [DecidableEq T] in
/-- Forgetting that all conditions were false. -/
theorem forget (h : ScanInv E C s sc done rest) {b : Bool} (hb : b = true → sc.setAllFalse = true)
    (hw : sc.wakeType = none → b = true) :
    ScanInv E C s { sc with setAllFalse := b } done rest :=
  ⟨h.split, h.head, h.late, h.noCond, fun hf => h.falseDone (hb hf), h.writer, h.untested, h.wake,
    hw⟩

omit [DecidableEq T] in
/-- The element that the scan is at is the first of those to come. -/
theorem rest_eq (h : ScanInv E C s sc done rest) {x : T} (hx : sc.p = some x) :
    ∃ rest', rest = x :: rest' := by
  cases rest with
  | nil => simpa [hx] using h.head
  | cons y rest' =>
      have := h.head
      simp only [List.head?_cons, hx, Option.some.injEq] at this
      exact ⟨rest', by rw [this]⟩

omit [DecidableEq T] in
/-- The scan passes over waiters whose conditions are false. -/
theorem skip {x : T} {k₁ k₂ : List T} (h : ScanInv E C s sc done (x :: k₁ ++ k₂))
    (ht : sc.testing = true) (hfalse : ∀ y ∈ x :: k₁, FalseAt E C s.wtr s.prot y) :
    ScanInv E C s { sc with p := k₂.head? } (done ++ x :: k₁) k₂ := by
  refine ⟨?_, rfl, h.late, h.noCond, fun hf y hy => ?_, fun hww => ?_, fun hf => ?_, h.wake,
    h.allFalse⟩
  · rw [h.split, List.append_assoc]
  · rw [← List.append_assoc] at hy
    rcases List.mem_append.mp hy with hy | hy
    · exact h.falseDone hf y hy
    · exact hfalse y hy
  · obtain ⟨y, hy, hm⟩ := h.writer hww
    exact ⟨y, by rw [← List.append_assoc]; exact List.mem_append_left _ hy, hm⟩
  · rw [ht] at hf
    cases hf

omit [DecidableEq T] in
/-- The scan leaves a writer behind because it is waking readers. -/
theorem passWriter {x : T} {rest : List T} (h : ScanInv E C s sc done (x :: rest))
    (hw : sc.wakeType ≠ none) (hm : (s.wtr x).lType = .writer) :
    ScanInv E C s { sc with p := rest.head?, setWriterWaiting := true, setAllFalse := false }
      (done ++ [x]) rest := by
  refine ⟨?_, rfl, h.late, h.noCond, nofun, fun _ => ⟨x, by simp, hm⟩, fun ht => ?_, h.wake,
    fun hn => (hw hn).elim⟩
  · rw [h.split, List.append_assoc]
    rfl
  · obtain ⟨hnil, hcase⟩ := h.untested ht
    refine ⟨hnil, ?_⟩
    rcases hcase with hwt | hnone | ⟨hwt, -⟩
    · exact Or.inl hwt
    · exact Or.inr (Or.inl fun y hy => hnone y (List.mem_cons_of_mem x hy))
    · exact (hw hwt).elim

/-- The scan takes a waiter off the list in order to wake it. -/
theorem remove {x : T} {rest : List T} {s' : State T σ} (h : ScanInv E C s sc done (x :: rest))
    (hnd : sc.newWaiters.Nodup) (hwt : sc.wakeType ≠ some .writer)
    (hw : ∀ y, (s'.wtr y).cond = (s.wtr y).cond ∧ (s'.wtr y).lType = (s.wtr y).lType)
    (hprot : s'.prot = s.prot) (hq : s'.waiters = s.waiters) :
    ScanInv E C s'
      { sc with
        p := rest.head?
        newWaiters := sc.newWaiters.erase x
        wake := sc.wake ++ [x]
        wakeType := some (s.wtr x).lType } done rest := by
  have hxd : x ∉ done := by
    rw [h.split] at hnd
    exact fun hm => (List.nodup_append.mp hnd).2.2 x hm x (by simp) rfl
  have herase : sc.newWaiters.erase x = done ++ rest := by
    rw [h.split, List.erase_append_right _ hxd, List.erase_cons_head]
  refine ⟨herase, rfl, h.late, fun hl y hy => ?_, fun hf y hy => ?_, fun hww => ?_, fun ht => ?_,
    by simp, nofun⟩
  · rw [(hw y).1]
    refine h.noCond hl y ?_
    rw [h.split]
    rw [herase] at hy
    simp only [List.mem_append, List.mem_cons] at hy ⊢
    tauto
  · obtain ⟨c, hc, hfalse⟩ := h.falseDone hf y hy
    exact ⟨c, (hw y).1.trans hc, hprot ▸ hfalse⟩
  · obtain ⟨y, hy, hm⟩ := h.writer hww
    exact ⟨y, hy, (hw y).2.trans hm⟩
  · obtain ⟨hnil, hcase⟩ := h.untested ht
    refine ⟨hq.trans hnil, ?_⟩
    rcases hcase with hwt' | hnone | ⟨-, y, hy, hm, -⟩
    · exact (hwt hwt').elim
    · exact Or.inr (Or.inl fun y hy => by rw [(hw y).1, hnone y (List.mem_cons_of_mem x hy)])
    · have hxy : x = y := by simpa [hy] using h.head
      subst hxy
      exact Or.inl (by rw [hm])

end ScanInv

variable [Fintype T]

/-- A step of the scan within one protocol state. -/
theorem Good.scanGoto (h : Good E C s loc) {p q : Pc T} (hpc : s.pc t = q)
    (hlists : p.lists = q.lists) (habs : p.abs = q.abs) (hok : p.Ok C (s.wtr t))
    (ht : p.target = none) (hsc : p.scan? = some sc) (hinv : ScanInv E C s sc done rest)
    (hplace : p.ScanPlace s.wtr) : Simulates E C t s loc (s.setPc t p) :=
  h.stutter rfl (hpc ▸ hlists) rfl rfl rfl rfl (fun _ => rfl) rfl rfl rfl (hpc ▸ habs)
    (PcOk.of_scan (State.setPc_self s t p) hok ht hsc
      (hinv.frame (fun _ _ => ⟨rfl, rfl⟩) (fun _ => rfl) fun _ hn => hn) hplace)

/-- The end of the inner loop. -/
theorem Good.scanEnd (h : Good E C s loc) (hpc : s.pc t = .unlockSlow m k (.scan sc))
    (hinv : ScanInv E C s sc done rest) (hk : k.Ok C m (s.wtr t))
    (hwt : sc.p ≠ none → sc.wakeType = some .writer) :
    Simulates E C t s loc (scanStep.scanEnd E s t m k sc sc.p) := by
  have hinv' : ScanInv E C s { sc with setAllFalse := sc.setAllFalse && sc.p.isNone } done rest := by
    refine hinv.forget (fun hb => (Bool.and_eq_true_iff.mp hb).1) fun hn => ?_
    rw [hinv.allFalse hn, Bool.true_and, Option.isNone_iff_eq_none]
    by_contra hp
    rw [hwt hp] at hn
    cases hn
  have hall : (sc.setAllFalse && sc.p.isNone) = true → sc.p = none := by
    intro hb
    simpa using (Bool.and_eq_true_iff.mp hb).2
  rw [scanStep.scanEnd]
  split
  · next ht =>
      refine h.scanGoto (p := .unlockSlow m k (.scanSpin _ .load)) hpc rfl ?_ ⟨hk, trivial⟩ rfl rfl
        hinv' ⟨ht, hall⟩
      simp only [Pc.abs, Pc.spinRole, ht, if_true]
      rfl
  · next ht =>
      refine h.scanAppend (w := s.word) rfl (by rw [hpc]; rfl) (fun a' hp => AStep.next ?_) hinv'
        hall hk
      convert hp using 1
      refine AState.ext rfl ?_ rfl rfl rfl rfl rfl rfl
      have hth : (s.pc t).abs = ⟨if sc.late then some .writer else none, .plain, k.phase, true,
          false, false, .no⟩ := by
        rw [hpc]
        simp only [Pc.abs, Pc.spinRole, ht]
        rfl
      rw [← hth]
      exact (Function.update_eq_self t _).symm

theorem scanStep_simulates (h : Good E C s loc) (hpc : s.pc t = .unlockSlow m k (.scan sc)) :
    Simulates E C t s loc (scanStep E s t m k sc) := by
  obtain ⟨hk, -⟩ : Pc.Ok C (s.wtr t) (.unlockSlow m k (.scan sc)) := hpc ▸ (h.pcs t).ok
  obtain ⟨done, rest, hinv⟩ := (h.pcs t).scan sc (by rw [hpc]; rfl)
  have hnd : (sc.waiters ++ sc.newWaiters).Nodup := by
    have := (h.lists.priv t).nodup
    rwa [hpc] at this
  have hnew : Segmented s.links (SameTruth E C s.wtr) sc.newWaiters := by
    have := h.rings.new t
    rwa [hpc] at this
  have hndnew := (List.nodup_append.mp hnd).2.1
  rw [scanStep]
  split
  · next hp =>
      have := h.scanEnd hpc hinv hk (by simp [hp])
      rwa [hp] at this
  next x hp =>
  obtain ⟨rest, rfl⟩ := hinv.rest_eq hp
  have hxd : x ∉ done := by
    rw [hinv.split] at hndnew
    exact fun hm => (List.nodup_append.mp hndnew).2.2 x hm x (by simp) rfl
  split
  · next hwt =>
      have := h.scanEnd hpc hinv hk (by simp [hwt])
      rwa [hp] at this
  next hwt =>
  split
  · -- a condition is met only while the scan tests conditions
    next hpanic =>
      obtain ⟨-, hcase⟩ := hinv.untested hpanic.2
      rcases hcase with hw | hnone | ⟨-, y, hy, -, hc⟩
      · exact (hwt hw).elim
      · exact (hpanic.1 (hnone x (by simp))).elim
      · rw [hp] at hy
        cases hy
        exact (hpanic.1 hc).elim
  next hpanic =>
  split
  · next hfalse =>
      have ht : sc.testing = true := by
        by_contra ht
        exact hpanic ⟨hfalse.1, by simpa using ht⟩
      rw [hinv.split] at hnew hndnew
      obtain ⟨k₁, k₂, rfl, hskip, hsame⟩ := skipPastSameCondition_spec hnew hndnew
      rw [← hinv.split] at hskip
      rw [hskip]
      obtain ⟨c, hc⟩ := Option.ne_none_iff_exists'.mp hfalse.1
      have hcf : c.holds E s.prot = false := by simpa [conditionTrue, hc] using hfalse.2
      refine h.scanGoto hpc rfl rfl ⟨hk, trivial⟩ rfl rfl (hinv.skip ht ?_) trivial
      intro y hy
      rcases List.mem_cons.mp hy with rfl | hy
      · exact ⟨c, hc, fun _ => hcf⟩
      · obtain ⟨c', d, hc', hd, hcd⟩ := hsame y hy
        rw [hc] at hc'
        cases hc'
        exact ⟨d, hd, fun hs => (hcd hs s.prot).symm.trans hcf⟩
  next htrue =>
  split
  · next hwake =>
      exact h.scanGoto hpc rfl rfl ⟨hk, trivial⟩ rfl rfl hinv ⟨hp, hwt, hwake⟩
  · next hleft =>
      rw [not_or] at hleft
      have hm : (s.wtr x).lType = .writer := by
        cases hl : (s.wtr x).lType
        · exact (hleft.2 hl).elim
        · rfl
      have hnext : dllNext sc.newWaiters x = rest.head? := by
        rw [hinv.split, dllNext_append hxd]
      rw [hnext]
      exact h.scanGoto hpc rfl rfl ⟨hk, trivial⟩ rfl rfl (hinv.passWriter hleft.1 hm) trivial

/-! ## Removing, releasing and waking -/

theorem Good.dequeue (h : Good E C s loc) {x : T} {old : Word}
    (hpc : s.pc t = .unlockSlow m k (.scanRemove sc x (.cas old))) :
    Simulates E C t s loc
      { ((s.setWtr x Waiter.removed).setDequeued x true).setPc t (.unlockSlow m k (.scan { sc with
          p := dllNext sc.newWaiters x
          newWaiters := sc.newWaiters.erase x
          wake := sc.wake ++ [x]
          wakeType := some (s.wtr x).lType })) with
        links := removeSameCondition E s.wtr s.links sc.newWaiters x } := by
  obtain ⟨hk, -⟩ : Pc.Ok C (s.wtr t) (.unlockSlow m k (.scanRemove sc x (.cas old))) :=
    hpc ▸ (h.pcs t).ok
  obtain ⟨hp, hwt, hwake⟩ : Pc.ScanPlace s.wtr (.unlockSlow m k (.scanRemove sc x (.cas old))) :=
    hpc ▸ (h.pcs t).place
  obtain ⟨done, rest, hinv⟩ := (h.pcs t).scan sc (by rw [hpc]; rfl)
  obtain ⟨rest, rfl⟩ := hinv.rest_eq hp
  have hpriv : Listed loc (sc.waiters ++ sc.newWaiters) (.priv t) := by
    have := h.lists.priv t
    rwa [hpc] at this
  have hwakes : Listed loc sc.wake (.wake t) := by
    have := h.lists.wake t
    rwa [hpc] at this
  have hold : Segmented s.links (SameTruth E C s.wtr) sc.waiters := by
    have := h.rings.old t
    rwa [hpc] at this
  have hnew : Segmented s.links (SameTruth E C s.wtr) sc.newWaiters := by
    have := h.rings.new t
    rwa [hpc] at this
  obtain ⟨hndo, hndn, hdisj⟩ := List.nodup_append.mp hpriv.nodup
  have hxn : x ∈ sc.newWaiters := by simp [hinv.split]
  have hxd : x ∉ done := by
    rw [hinv.split] at hndn
    exact fun hm => (List.nodup_append.mp hndn).2.2 x hm x (by simp) rfl
  have hnext : dllNext sc.newWaiters x = rest.head? := by rw [hinv.split, dllNext_append hxd]
  have hxo : x ∉ sc.waiters := fun hm => hdisj x hm x hxn rfl
  have hloc : loc x = .priv t := (hpriv.mem x).mp (by simp [hxn])
  have hC : ∀ x c, (s.wtr x).cond = some c → C c := h.inv.place.conds
  obtain ⟨hseg, hout, halone⟩ := segmented_remove hC hnew hndn hxn
  rw [hnext]
  generalize hsc' : { sc with
    p := rest.head?
    newWaiters := sc.newWaiters.erase x
    wake := sc.wake ++ [x]
    wakeType := some (s.wtr x).lType } = sc'
  have hlists : sc'.waiters = sc.waiters ∧ sc'.newWaiters = sc.newWaiters.erase x ∧
      sc'.wake = sc.wake ++ [x] := by
    subst hsc'
    exact ⟨rfl, rfl, rfl⟩
  have habs : (Pc.unlockSlow m k (.scan sc')).abs = (s.pc t).abs := by
    subst hsc'
    rw [hpc]
    rfl
  have hwtr : ∀ y, ((s.setWtr x Waiter.removed).wtr y).cond = (s.wtr y).cond ∧
      ((s.setWtr x Waiter.removed).wtr y).lType = (s.wtr y).lType := by
    intro y
    by_cases hy : y = x
    · subst hy
      simp [State.setWtr, Waiter.removed]
    · simp [State.setWtr, hy]
  have hne : ∀ u, u ≠ t → ((Function.update s.pc t (.unlockSlow m k (.scan sc'))) u).lists =
      (s.pc u).lists := by
    intro u hu
    simp [hu]
  have hstep := AStep.dequeue (E := E) (C := C) (t := t) (a := s.abs loc) x
    (by simp [State.abs, Pc.abs, hpc, Pc.region]) hloc
  refine h.next (Function.update loc x (.wake t))
    (hstep.of_eq (AState.ext rfl ?_ rfl ?_ rfl rfl rfl rfl))
    (fun u hu => by simp [State.setPc, State.setDequeued, State.setWtr, hu]) ?_ ?_ ?_
  · exact (State.abs_th (s := s) rfl habs).trans (Function.update_eq_self t _)
  · funext y
    by_cases hy : y = x
    · subst hy
      simp [State.abs, State.setPc, State.setWtr, State.setDequeued, Waiter.core, Waiter.removed]
    · simp [State.abs, State.setPc, State.setWtr, State.setDequeued, hy]
  · refine h.lists.of_step (t := t) hne (fun _ => rfl) ?_ ?_ ?_ ?_ ?_
    · exact h.lists.muQ.other (by simp [hloc]) (by simp)
    · rw [State.setPc_self]
      change Listed _ (sc'.waiters ++ sc'.newWaiters) _
      rw [hlists.1, hlists.2.1]
      have hrest : Listed (Function.update loc x (.wake t)) ((sc.waiters ++ sc.newWaiters).erase x)
          (.priv t) := hpriv.erase (by simp)
      rwa [List.erase_append_right _ hxo] at hrest
    · rw [State.setPc_self]
      change Listed _ sc'.wake _
      rw [hlists.2.2]
      exact hwakes.snoc (by simp [hloc])
    · rw [State.setPc_self]
      have := h.lists.toWake t
      rw [hpc] at this
      exact this.other (by simp [hloc]) (by simp)
    · intro y l h1 h2 h3 _ _
      by_cases hy : y = x
      · subst hy
        simp [hloc, Ne.symm h2, Ne.symm h3]
      · simp [hy]
  · refine PcOk.of_scan (State.setPc_self _ t _) (Pc.Ok.congr (w := s.wtr t) ⟨hk, trivial⟩
      (hwtr t).1 (hwtr t).2) rfl rfl (?_ : ScanInv E C _ sc' done rest) trivial
    subst hsc'
    exact hinv.remove hndn hwt hwtr rfl rfl
  · have hcond : ∀ y, ((s.setWtr x Waiter.removed).wtr y).cond = (s.wtr y).cond := fun y => (hwtr y).1
    refine h.rings.of_step (t := t) hne hout ?_ (fun y _ _ _ => hcond y) ?_ ?_ ?_ ?_
    · intro y hy u hu hyu
      have h1 := (hpriv.mem y).mp (by simp [hy])
      rw [((h.lists.priv u).mem y).mp hyu] at h1
      cases h1
      exact hu rfl
    · refine Segmented.keep h.rings.muQ hout (fun y hy hy' => ?_) fun y _ => hcond y
      have h1 := (h.lists.muQ.mem y).mp hy
      rw [(hpriv.mem y).mp (by simp [hy'])] at h1
      cases h1
    · rw [State.setPc_self]
      change Segmented _ _ sc'.waiters
      rw [hlists.1]
      exact Segmented.keep hold hout (fun y hy hy' => hdisj y hy y hy' rfl) fun y _ => hcond y
    · rw [State.setPc_self]
      change Segmented _ _ sc'.newWaiters
      rw [hlists.2.1]
      exact Segmented.keep hseg (k := []) (fun _ _ => ⟨rfl, rfl⟩) (by simp) fun y _ => hcond y
    · intro y hy hy' _ hy''
      rw [State.setPc_self] at hy'
      change y ∉ sc'.waiters ++ sc'.newWaiters at hy'
      rw [hlists.1, hlists.2.1] at hy'
      have hyx : y = x := by
        by_contra hyx
        rw [List.mem_append, not_or, List.mem_erase_of_ne hyx] at hy'
        rw [hpc] at hy''
        rcases hy'' with hy'' | hy'' | hy''
        · exact hy hy''
        · rcases List.mem_append.mp hy'' with hy'' | hy''
          · exact hy'.1 hy''
          · exact hy'.2 hy''
        · exact hy'.2 hy''
      exact hyx ▸ halone

/-- Where a thread goes on that still has to wake the listed waiters. -/
def wakePc (m : Mode) (k : UnlockCont) : List T → Pc T
  | [] => k.pc
  | x :: wake => .unlockSlow m k (.wakeStore x wake)

omit [Fintype T] in
theorem wakeNext_eq (s : State T σ) (t : T) (m : Mode) (k : UnlockCont) (l : List T) :
    wakeNext s t m k l = s.setPc t (wakePc m k l) := by
  cases l with
  | nil => exact afterUnlock_eq s t k
  | cons x wake => rfl

omit [DecidableEq T] [Fintype T] in
theorem wakePc_spec {w : Waiter} (hk : k.Ok C m w) (l : List T) :
    (wakePc m k l).abs = ⟨none, .no, k.phase, false, false, false, .no⟩ ∧
      (wakePc m k l).lists = ([], [], l, []) ∧ (wakePc m k l).Ok C w ∧
      (wakePc m k l).target = none ∧ (wakePc m k l).scan? = none := by
  cases l with
  | nil =>
      exact ⟨hk.abs_pc, UnlockCont.lists_pc, hk.ok_pc, UnlockCont.target_pc, UnlockCont.scan_pc⟩
  | cons x wake => exact ⟨rfl, rfl, ⟨hk, trivial⟩, rfl, rfl⟩

theorem Good.final (h : Good E C s loc) {r : Release T} {old : Word}
    (hpc : s.pc t = .unlockSlow m k (.final r (.cas old))) (hword : s.word = old) :
    Simulates E C t s loc (wakeNext (s.setWord (finalWord r old)) t m k r.wake) := by
  subst hword
  obtain ⟨hk, -⟩ : Pc.Ok C (s.wtr t) (.unlockSlow m k (.final r (.cas s.word))) :=
    hpc ▸ (h.pcs t).ok
  obtain ⟨habs, hlists, hok, htarget, hscan⟩ := wakePc_spec hk r.wake
  have hlate : r.late = true → (view s.word).wlock = true := by
    intro hl
    refine h.inv.lock.shares.hasShare (m := .writer) (t := t) ?_
    simp [State.abs, Pc.abs, hpc, Pc.lockRole, hl]
  have hstep := AStep.final (E := E) (C := C) (t := t) (a := s.abs loc) r
    (by simp [State.abs, Pc.abs, hpc, Pc.spinRole])
  rw [wakeNext_eq]
  refine h.simple loc (p := wakePc m k r.wake) rfl (by rw [hlists, hpc]; rfl) rfl (fun _ => rfl) rfl
    (fun _ => Or.inl rfl)
    (hstep.of_eq (AState.ext (view_finalWord hlate) (State.abs_th rfl ?_) rfl rfl rfl rfl rfl rfl))
    (PcOk.of_ok (State.setPc_self _ t _) hok htarget hscan)
  rw [habs]
  simp only [State.abs, hpc]
  rfl

theorem Good.wakeStore (h : Good E C s loc) {x : T} {wake : List T}
    (hpc : s.pc t = .unlockSlow m k (.wakeStore x wake)) :
    Simulates E C t s loc
      ((s.setWtr x (Waiter.setWaiting false)).setPc t (.unlockSlow m k (.wakeSem x wake))) := by
  obtain ⟨hk, -⟩ : Pc.Ok C (s.wtr t) (.unlockSlow m k (.wakeStore x wake)) := hpc ▸ (h.pcs t).ok
  have hwakes : Listed loc (x :: wake) (.wake t) := by
    have := h.lists.wake t
    rwa [hpc] at this
  have hloc : loc x = .wake t := (hwakes.mem x).mp (by simp)
  have hwtr : ∀ y, ((s.setWtr x (Waiter.setWaiting false)).wtr y).cond = (s.wtr y).cond ∧
      ((s.setWtr x (Waiter.setWaiting false)).wtr y).lType = (s.wtr y).lType := by
    intro y
    by_cases hy : y = x
    · subst hy
      simp [State.setWtr, Waiter.setWaiting]
    · simp [State.setWtr, hy]
  have hne : ∀ u, u ≠ t → ((Function.update s.pc t (.unlockSlow m k (.wakeSem x wake))) u).lists =
      (s.pc u).lists := by
    intro u hu
    simp [hu]
  have hstep := AStep.wake (E := E) (C := C) (t := t) (a := s.abs loc) x
    (by simp [State.abs, Pc.abs, hpc, Pc.spinRole]) hloc
  refine h.next (Function.update loc x .woken)
    (hstep.of_eq (AState.ext rfl ?_ rfl ?_ rfl rfl rfl rfl))
    (fun u hu => by simp [State.setPc, State.setWtr, hu]) ?_ ?_ ?_
  · refine (State.abs_th (s := s) (p := .unlockSlow m k (.wakeSem x wake)) rfl ?_).trans
      (Function.update_eq_self t _)
    rw [hpc]
    rfl
  · funext y
    by_cases hy : y = x
    · subst hy
      simp [State.abs, State.setPc, State.setWtr, Waiter.core, Waiter.setWaiting]
    · simp [State.abs, State.setPc, State.setWtr, hy]
  · refine h.lists.of_step (t := t) hne (fun _ => rfl) ?_ ?_ ?_ ?_ ?_
    · exact h.lists.muQ.other (by simp [hloc]) (by simp)
    · rw [State.setPc_self]
      have := h.lists.priv t
      rw [hpc] at this
      exact this.other (by simp [hloc]) (by simp)
    · rw [State.setPc_self]
      exact hwakes.tail (by simp)
    · rw [State.setPc_self]
      have := h.lists.toWake t
      rw [hpc] at this
      exact this.other (by simp [hloc]) (by simp)
    · intro y l _ _ h3 _ h5
      by_cases hy : y = x
      · subst hy
        have : l ≠ .woken := by
          rintro rfl
          exact h5 (Or.inr rfl)
        simp [hloc, Ne.symm h3, Ne.symm this]
      · simp [hy]
  · exact PcOk.of_ok (State.setPc_self _ t _) (Pc.Ok.congr (w := s.wtr t) ⟨hk, trivial⟩
      (hwtr t).1 (hwtr t).2) rfl rfl
  · have hscan : ∀ u, ((Function.update s.pc t (.unlockSlow m k (.wakeSem x wake))) u).scan? =
        (s.pc u).scan? := by
      intro u
      by_cases hu : u = t
      · subst hu
        rw [Function.update_self, hpc]
        rfl
      · rw [Function.update_of_ne hu]
    exact h.rings.congr (fun u => congrArg (Option.elim · [] Scan.waiters) (hscan u))
      (fun u => congrArg (Option.elim · [] Scan.newWaiters) (hscan u)) rfl rfl
      fun y _ => (hwtr y).1

theorem muUnlockSlow_simulates (h : Good E C s loc) {p : UnlockSlowPc T}
    (hpc : s.pc t = .unlockSlow m k p) : Simulates E C t s loc (muUnlockSlow E s t m k p) := by
  obtain ⟨hk, hp⟩ : Pc.Ok C (s.wtr t) (.unlockSlow m k p) := hpc ▸ (h.pcs t).ok
  have hscan := (h.pcs t).scan
  have hplace := (h.pcs t).place
  rw [hpc] at hscan hplace
  cases p with
  | top =>
      rw [muUnlockSlow]
      split
      · next htest => exact h.goto hpc rfl rfl ⟨hk, (unlockSlow_test s.word).mp htest⟩ rfl rfl
      · next htest =>
          rw [unlockSlow_test] at htest
          split
          · next hspin =>
              exact h.goto hpc rfl rfl ⟨hk, htest, (and_muSpinlock s.word).mp hspin⟩ rfl rfl
          · exact h.goto hpc rfl rfl ⟨hk, trivial⟩ rfl rfl
  | fast old =>
      rw [muUnlockSlow]
      split
      · next hword =>
          subst hword
          have habs : (s.pc t).abs = ⟨some m, .no, k.phase, false, false, false, .no⟩ := by
            rw [hpc]
            rfl
          have hshare : (view s.word).HasShare m :=
            h.inv.lock.shares.hasShare (t := t) (congrArg Abs.lock habs)
          refine h.release (m == .writer) habs (by rw [hpc]; rfl) ?_
            (view_uncontendedReleaseWord hshare) hk
          exact unneeded_of_noWakeup hshare h.inv.lock.shares.excl hp
      · exact h.goto hpc rfl rfl ⟨hk, trivial⟩ rfl rfl
  | grab old =>
      simp only [muUnlockSlow]
      split
      · next hword => exact h.grab hpc hword rfl
      · exact h.goto hpc rfl rfl ⟨hk, trivial⟩ rfl rfl
  | scanRelease sc lc =>
      obtain ⟨done, rest, hinv⟩ := hscan sc rfl
      cases lc with
      | load => exact h.scanGoto hpc rfl rfl ⟨hk, trivial⟩ rfl rfl hinv hplace
      | cas old =>
          rw [muUnlockSlow]
          split
          · next hword =>
              subst hword
              have ht : sc.testing = true := hplace
              refine h.releaseSpin (p := .unlockSlow m k (.scan sc)) hpc rfl ?_ ?_ rfl
                (view_releaseSpinlockWord s.word)
                (PcOk.of_scan (State.setPc_self _ t _) ⟨hk, trivial⟩ rfl rfl
                  (hinv.frame (fun _ _ => ⟨rfl, rfl⟩) (fun _ => rfl) fun _ hn => hn) trivial)
              · exact fun _ => by simp [Pc.lockRole, hinv.late ht]
              · simp only [Pc.abs, Pc.spinRole, ht, if_true]
                rfl
          · exact h.scanGoto hpc rfl rfl ⟨hk, trivial⟩ rfl rfl hinv hplace
  | scan sc => exact scanStep_simulates h hpc
  | scanRemove sc x lc =>
      obtain ⟨done, rest, hinv⟩ := hscan sc rfl
      cases lc with
      | load => exact h.scanGoto hpc rfl rfl ⟨hk, trivial⟩ rfl rfl hinv hplace
      | cas old =>
          rw [muUnlockSlow]
          split
          · exact h.dequeue hpc
          · exact h.scanGoto hpc rfl rfl ⟨hk, trivial⟩ rfl rfl hinv hplace
  | scanSpin sc lc =>
      obtain ⟨done, rest, hinv⟩ := hscan sc rfl
      obtain ⟨ht, hall⟩ := hplace
      cases lc with
      | load =>
          rw [muUnlockSlow]
          split
          · next hspin =>
              exact h.scanGoto hpc rfl rfl ⟨hk, (and_muSpinlock s.word).mp hspin⟩ rfl rfl hinv
                ⟨ht, hall⟩
          · exact h.scanGoto hpc rfl rfl ⟨hk, trivial⟩ rfl rfl hinv ⟨ht, hall⟩
      | cas old =>
          rw [muUnlockSlow]
          split
          · next hword =>
              subst hword
              refine h.scanAppend rfl (by rw [hpc]; rfl) (fun a' hpk => AStep.retake ?_ ?_ hp ?_)
                hinv hall hk
              · simp [State.abs, Pc.abs, hpc, Pc.spinRole]
              · simp [State.abs, Pc.abs, hpc, Pc.region]
              · convert hpk using 1
                refine AState.ext (view_spinWord s.word).symm ?_ rfl rfl rfl rfl rfl rfl
                simp only [AState.retakeSpin, AState.setTh, AState.setV, State.abs, hpc]
                rfl
          · exact h.scanGoto hpc rfl rfl ⟨hk, trivial⟩ rfl rfl hinv ⟨ht, hall⟩
  | final r lc =>
      cases lc with
      | load => exact h.goto hpc rfl rfl ⟨hk, trivial⟩ rfl rfl
      | cas old =>
          rw [muUnlockSlow]
          split
          · next hword => exact h.final hpc hword
          · exact h.goto hpc rfl rfl ⟨hk, trivial⟩ rfl rfl
  | wakeStore x wake => exact h.wakeStore hpc
  | wakeSem x wake =>
      rw [muUnlockSlow, wakeNext_eq]
      obtain ⟨habs, hlists, hok, htarget, hsc⟩ := wakePc_spec hk wake
      have hwtr : ∀ y, ((s.setWtr x (Waiter.post E)).wtr y).core = (s.wtr y).core := by
        intro y
        by_cases hy : y = x
        · subst hy
          simp [State.setWtr, Waiter.post, Waiter.core]
        · simp [State.setWtr, hy]
      have hcore := hwtr t
      simp only [Waiter.core, Waiter.mk.injEq] at hcore
      refine h.stutter (p := wakePc m k wake) rfl (by rw [hlists, hpc]; rfl) rfl rfl rfl rfl hwtr rfl
        rfl rfl (by rw [habs, hpc]; rfl)
        (PcOk.of_ok (State.setPc_self _ t _) (hok.congr ?_ ?_) htarget hsc)
      · exact hcore.2.2.2.2.2
      · exact hcore.2.2.2.2.1

end Nsync.Mu
