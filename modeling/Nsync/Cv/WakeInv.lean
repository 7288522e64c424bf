import Nsync.Cv.Wake

/-!
# The invariant of a wake-up

Which records are to be moved is settled by the word that the CAS has found.  At each
place of `wake_waiters` the invariant says which records have been dealt with and how,
and neither the steps of the call nor those of the other threads break it.
-/

set_option linter.unusedSectionVars false

namespace Nsync.Cv.Wake

open Nsync.Mu

variable {α M : Type} [DecidableEq α] [DecidableEq M]

/-! ## What is to be moved -/

section

variable (nw₀ : α → Nw M) (L : List α)

/-- Whether the first record cannot acquire a mutex with the word `w`. -/
def firstCantAcquire (w : Word) : Bool :=
  match L.head? with
  | some f => decide (w &&& (nw₀ f).zeroToAcquire ≠ 0#32)
  | none => false

/-- Whether a record is to be moved to the queue of the mutex. -/
def moves (c : Option (Cas α)) (x : α) : Bool :=
  match c with
  | some c => (nw₀ x).mucv && (firstCantAcquire nw₀ L c.before || (nw₀ x).isWriter)
  | none => false

/-- A record of a thread that holds an `nsync_mu` in reader mode. -/
def Nw.nativeReader (x : Nw M) : Bool := x.mucv && !x.isWriter

/-- The first record is native and its mutex is `m`. -/
structure FirstOn (f : α) (m : M) : Prop where
  head : ∃ l, L = f :: l
  mucv : (nw₀ f).mucv = true
  cvMu : (nw₀ f).cvMu = some m

/-- The CAS found the mutex held and its spinlock free. -/
structure CasOk (c : Cas α) : Prop where
  held : c.before &&& muAnyLock ≠ 0#32
  free : c.before &&& muSpinlock = 0#32
  after : c.after = transferWord c.before
  first : ∃ f m, FirstOn nw₀ L f m

/-- No record has been dealt with. -/
structure Fresh (s : State α M) : Prop where
  toWake : s.toWake = L
  moved : s.moved = []
  cleared : s.cleared = []
  posted : s.posted = []
  requested : s.requested = false

/-- What the spinlock protects. -/
structure Held (s : State α M) (m : M) (c : Cas α) : Prop where
  queue : (s.mu m).waiters = c.queue ++ s.moved
  records : ∀ x ∈ s.moved, s.nw x = { nw₀ x with cvMu := none }

/-- The records `dn` have been dealt with, and `rest` have not. -/
structure InLoop (s : State α M) (m : M) (cant fw tw wr : Bool) (c : Cas α) (f : α)
    (dn rest : List α) : Prop where
  acquired : s.acquired = some c
  cas : CasOk nw₀ L c
  first : FirstOn nw₀ L f m
  cant : cant = firstCantAcquire nw₀ L c.before
  firstIsWriter : fw = (nw₀ f).isWriter
  split : L = dn ++ rest
  toWake : s.toWake = dn.filter (fun x => !moves nw₀ L (some c) x) ++ rest
  moved : s.moved = dn.filter (moves nw₀ L (some c))
  held : Held nw₀ s m c
  transferredAWriter : tw = s.moved.any fun x => (nw₀ x).isWriter
  wokeAReader : wr = (dn.filter fun x => !moves nw₀ L (some c) x).any fun x => (nw₀ x).nativeReader
  cleared : s.cleared = []
  posted : s.posted = []
  requested : s.requested = false

/-- The records that are left to be woken. -/
def left (s : State α M) : List α := L.filter fun x => !moves nw₀ L s.acquired x

/-- All records to be moved have been moved. -/
structure Decided (s : State α M) : Prop where
  moved : s.moved = L.filter (moves nw₀ L s.acquired)
  requested : s.requested =
    (s.moved.any (fun x => (nw₀ x).isWriter) && !(left nw₀ L s).any fun x => (nw₀ x).nativeReader)
  cas : ∀ c, s.acquired = some c → CasOk nw₀ L c

/-- What holds at each place. -/
def At (s : State α M) : Pc α M → Prop
  | .start => Fresh L s ∧ s.acquired = none
  | .load f m => Fresh L s ∧ s.acquired = none ∧ FirstOn nw₀ L f m
  | .cas f m old next => Fresh L s ∧ s.acquired = none ∧ FirstOn nw₀ L f m ∧
      old &&& muAnyLock ≠ 0#32 ∧ old &&& muSpinlock = 0#32 ∧ next = L.tail.head?
  | .first f m cant next => Fresh L s ∧ FirstOn nw₀ L f m ∧ next = L.tail.head? ∧
      ∃ c, s.acquired = some c ∧ CasOk nw₀ L c ∧ (s.mu m).waiters = c.queue ∧
        cant = firstCantAcquire nw₀ L c.before
  | .loop m cant fw tw wr p => ∃ c f dn rest, p = rest.head? ∧
      InLoop nw₀ L s m cant fw tw wr c f dn rest
  | .releaseLoad m set => Decided nw₀ L s ∧ s.toWake = left nw₀ L s ∧ s.cleared = [] ∧
      s.posted = [] ∧ set = s.requested ∧ ∃ c, s.acquired = some c ∧ Held nw₀ s m c
  | .releaseCas m set _ => Decided nw₀ L s ∧ s.toWake = left nw₀ L s ∧ s.cleared = [] ∧
      s.posted = [] ∧ set = s.requested ∧ ∃ c, s.acquired = some c ∧ Held nw₀ s m c
  | .wake p => Decided nw₀ L s ∧ left nw₀ L s = s.cleared ++ s.toWake ∧ s.posted = s.cleared ∧
      p = s.toWake.head?
  | .clear x next => Decided nw₀ L s ∧ left nw₀ L s = s.cleared ++ x :: s.toWake ∧
      s.posted = s.cleared ∧ next = s.toWake.head?
  | .post x next => Decided nw₀ L s ∧ left nw₀ L s = s.cleared ++ s.toWake ∧
      s.cleared = s.posted ++ [x] ∧ next = s.toWake.head?
  | .done => Decided nw₀ L s ∧ left nw₀ L s = s.cleared ∧ s.posted = s.cleared ∧ s.toWake = []

/-- The invariant of a call. -/
structure Good (s : State α M) : Prop where
  kept : ∀ x, s.Ours x → s.nw x = nw₀ x
  unlisted : ∀ x, s.Ours x → ∀ m, x ∉ (s.mu m).waiters
  place : At nw₀ L s s.pc

end

theorem nextIn_append {l r : List α} {x : α} (hx : x ∉ l) : nextIn (l ++ x :: r) x = r.head? := by
  have hall : ∀ y ∈ l, decide (y ≠ x) = true := by
    intro y hy
    simp only [decide_eq_true_eq]
    exact fun h => hx (h ▸ hy)
  rw [nextIn, List.dropWhile_append_of_pos hall]
  simp

variable {nw₀ : α → Nw M} {L : List α} {s s' : State α M}

/-! ## Interference -/

theorem Good.interferes (hg : Good nw₀ L s) (h : Interferes s s') : Good nw₀ L s' := by
  obtain ⟨mine, ours, locked⟩ := h
  obtain ⟨mu', nw', pc, tw, ar, ac, rq, mv, cl, po⟩ := s'
  obtain ⟨mu, nw, _, _, _, _, _, _, _, _⟩ := s
  simp only [State.mk.injEq, true_and] at mine
  obtain ⟨rfl, rfl, rfl, rfl, rfl, rfl, rfl, rfl⟩ := mine
  refine ⟨fun x hx => (ours x hx).1.trans (hg.kept x hx), fun x hx => (ours x hx).2, ?_⟩
  have hplace := hg.place
  cases pc with
  | first f m cant next =>
    obtain ⟨hf, hfirst, hn, c, hc, hok, hq, hcant⟩ := hplace
    exact ⟨⟨hf.1, hf.2, hf.3, hf.4, hf.5⟩, hfirst, hn, c, hc, hok, (locked m rfl).1.trans hq, hcant⟩
  | loop m cant fw tw wr p =>
    obtain ⟨c, f, dn, rest, hp, hl⟩ := hplace
    refine ⟨c, f, dn, rest, hp, ⟨hl.acquired, hl.cas, hl.first, hl.cant, hl.firstIsWriter, hl.split,
      hl.toWake, hl.moved, ?_, hl.transferredAWriter, hl.wokeAReader, hl.cleared, hl.posted,
      hl.requested⟩⟩
    exact ⟨(locked m rfl).1.trans hl.held.queue,
      fun x hx => ((locked m rfl).2.2 x hx).trans (hl.held.records x hx)⟩
  | releaseLoad m set =>
    obtain ⟨hd, hw, hc, hp, hset, c, hac, hh⟩ := hplace
    exact ⟨⟨hd.1, hd.2, hd.3⟩, hw, hc, hp, hset, c, hac, (locked m rfl).1.trans hh.queue,
      fun x hx => ((locked m rfl).2.2 x hx).trans (hh.records x hx)⟩
  | releaseCas m set old =>
    obtain ⟨hd, hw, hc, hp, hset, c, hac, hh⟩ := hplace
    exact ⟨⟨hd.1, hd.2, hd.3⟩, hw, hc, hp, hset, c, hac, (locked m rfl).1.trans hh.queue,
      fun x hx => ((locked m rfl).2.2 x hx).trans (hh.records x hx)⟩
  | start => exact ⟨⟨hplace.1.1, hplace.1.2, hplace.1.3, hplace.1.4, hplace.1.5⟩, hplace.2⟩
  | load f m => exact ⟨⟨hplace.1.1, hplace.1.2, hplace.1.3, hplace.1.4, hplace.1.5⟩, hplace.2⟩
  | cas f m old next =>
    exact ⟨⟨hplace.1.1, hplace.1.2, hplace.1.3, hplace.1.4, hplace.1.5⟩, hplace.2⟩
  | wake p => exact ⟨⟨hplace.1.1, hplace.1.2, hplace.1.3⟩, hplace.2⟩
  | clear x next => exact ⟨⟨hplace.1.1, hplace.1.2, hplace.1.3⟩, hplace.2⟩
  | post x next => exact ⟨⟨hplace.1.1, hplace.1.2, hplace.1.3⟩, hplace.2⟩
  | done => exact ⟨⟨hplace.1.1, hplace.1.2, hplace.1.3⟩, hplace.2⟩

/-! ## Steps of the call -/

/-- A writer cannot acquire a mutex that is held. -/
theorem CasOk.cant_of_writer {c : Cas α} (hc : CasOk nw₀ L c) {f : α} {m : M}
    (hf : FirstOn nw₀ L f m) (hw : (nw₀ f).isWriter = true) :
    firstCantAcquire nw₀ L c.before = true := by
  obtain ⟨l, hl⟩ := hf.head
  have htype : (nw₀ f).lType = some .writer := by simpa [Nw.isWriter] using hw
  have hzero : (nw₀ f).zeroToAcquire = muAnyLock ||| muLongWait := by
    rw [Nw.zeroToAcquire, htype]
    rfl
  simp only [firstCantAcquire, hl, List.head?_cons, hzero, decide_eq_true_eq]
  intro h
  rw [BitVec.and_or_distrib_left] at h
  exact hc.held (BitVec.or_eq_zero_iff.mp h).1

theorem moves_none (nw₀ : α → Nw M) (L : List α) (x : α) : moves nw₀ L none x = false := rfl

/-- Without the CAS nothing is moved. -/
theorem Fresh.decided (hf : Fresh L s) (ha : s.acquired = none) : Decided nw₀ L s := by
  refine ⟨?_, ?_, fun c hc => ?_⟩
  · simp [hf.moved, ha, moves_none]
  · simp [hf.requested, hf.moved]
  · rw [ha] at hc
    cases hc

theorem Fresh.left_eq (hf : Fresh L s) (ha : s.acquired = none) : left nw₀ L s = s.toWake := by
  simp [left, ha, moves_none, hf.toWake]

/-- A step that gives up some records and leaves the others alone. -/
theorem Good.next (hg : Good nw₀ L s) (hsub : ∀ x, s'.Ours x → s.Ours x)
    (hnw : ∀ x, s'.Ours x → s'.nw x = s.nw x)
    (hmu : ∀ x, s'.Ours x → ∀ m, x ∈ (s'.mu m).waiters → x ∈ (s.mu m).waiters)
    (hplace : At nw₀ L s' s'.pc) : Good nw₀ L s' where
  kept x hx := (hnw x hx).trans (hg.kept x (hsub x hx))
  unlisted x hx m hm := hg.unlisted x (hsub x hx) m (hmu x hx m hm)
  place := hplace

/-- A step that only goes to another place. -/
theorem Good.goto (hg : Good nw₀ L s) {p : Pc α M} (hp : p.taken = none)
    (hplace : At nw₀ L { s with pc := p } p) : Good nw₀ L { s with pc := p } := by
  refine hg.next (fun x hx => ?_) (fun _ _ => rfl) (fun _ _ _ h => h) hplace
  exact Or.inl (hx.resolve_right fun h => by simp [hp] at h)

/-- The last loop begins without the CAS. -/
theorem Good.wakeAll (hg : Good nw₀ L s) (hf : Fresh L s) (ha : s.acquired = none) :
    Good nw₀ L s.toWakeLoop := by
  refine hg.goto rfl ⟨?_, ?_, ?_, rfl⟩
  · exact ⟨(hf.decided ha).1, (hf.decided ha).2, (hf.decided ha).3⟩
  · change left nw₀ L s = s.cleared ++ s.toWake
    rw [hf.cleared, hf.left_eq ha, List.nil_append]
  · change s.posted = s.cleared
    rw [hf.cleared, hf.posted]

theorem Fresh.goto (hf : Fresh L s) (p : Pc α M) : Fresh L { s with pc := p } :=
  ⟨hf.1, hf.2, hf.3, hf.4, hf.5⟩

theorem Fresh.nextIn_first (hf : Fresh L s) {f : α} {m : M} (hfirst : FirstOn nw₀ L f m) :
    nextIn s.toWake f = L.tail.head? := by
  obtain ⟨l, rfl⟩ := hfirst.head
  rw [hf.toWake]
  exact nextIn_append List.not_mem_nil

theorem FirstOn.ours {f : α} {m : M} (hfirst : FirstOn nw₀ L f m) (hf : Fresh L s) : s.Ours f := by
  obtain ⟨l, rfl⟩ := hfirst.head
  refine Or.inl ?_
  rw [hf.toWake]
  exact List.mem_cons_self

theorem Good.step_start (hg : Good nw₀ L s) (hpc : s.pc = .start) (h : step s = some s') :
    Good nw₀ L s' := by
  have hplace := hg.place
  rw [hpc] at hplace
  obtain ⟨hf, ha⟩ := hplace
  simp only [step, hpc] at h
  split at h
  case h_1 => cases h
  case h_2 f l hl =>
    have hnw : s.nw f = nw₀ f := hg.kept f (Or.inl (hl ▸ List.mem_cons_self))
    split at h
    case isTrue hmucv =>
      split at h
      case h_1 m hm =>
        cases h
        exact hg.goto rfl ⟨hf.goto _, ha, ⟨l, hf.toWake ▸ hl⟩, hnw ▸ hmucv, hnw ▸ hm⟩
      case h_2 =>
        cases h
        exact hg.wakeAll hf ha
    case isFalse =>
      cases h
      exact hg.wakeAll hf ha

theorem Good.step_load (hg : Good nw₀ L s) {f : α} {m : M} (hpc : s.pc = .load f m)
    (h : step s = some s') : Good nw₀ L s' := by
  have hplace := hg.place
  rw [hpc] at hplace
  obtain ⟨hf, ha, hfirst⟩ := hplace
  simp only [step, hpc] at h
  split at h
  case isTrue hcond =>
    cases h
    exact hg.goto rfl ⟨hf.goto _, ha, hfirst, hcond.1, hcond.2.1, hf.nextIn_first hfirst⟩
  case isFalse =>
    cases h
    exact hg.wakeAll hf ha

theorem Good.step_cas (hg : Good nw₀ L s) {f : α} {m : M} {old : Word} {n : Option α}
    (hpc : s.pc = .cas f m old n) (h : step s = some s') : Good nw₀ L s' := by
  have hplace := hg.place
  rw [hpc] at hplace
  obtain ⟨hf, ha, hfirst, hheld, hfree, hn⟩ := hplace
  simp only [step, hpc] at h
  split at h
  case isTrue hword =>
    cases h
    obtain ⟨l, hl⟩ := hfirst.head
    have hnw := hg.kept f (hfirst.ours hf)
    refine hg.next (fun x hx => Or.inl (hx.resolve_right fun h => by cases h)) (fun _ _ => rfl)
      (fun x _ k hx => ?_) ?_
    · by_cases hk : k = m
      · subst hk
        simpa [State.setWord] using hx
      · simpa [State.setWord, hk] using hx
    · refine ⟨⟨hf.1, hf.2, hf.3, hf.4, hf.5⟩, hfirst, hn, _, rfl, ⟨?_, ?_, ?_, f, m, hfirst⟩, ?_, ?_⟩
      · rw [hword]
        exact hheld
      · rw [hword]
        exact hfree
      · rw [hword]
      · simp [State.setWord]
      · simp [firstCantAcquire, hl, hnw, hword]
  case isFalse =>
    cases h
    exact hg.wakeAll hf ha

/-! ### The transfer -/

/-- A record is moved. -/
theorem Good.transfer (hg : Good nw₀ L s) (m : M) {x : α} (hnd : s.toWake.Nodup) {p : Pc α M} (hp : p.taken = none)
    (hplace : At nw₀ L { s.transfer m x with pc := p } p) :
    Good nw₀ L { s.transfer m x with pc := p } := by
  have hne : ∀ y, ({ s.transfer m x with pc := p } : State α M).Ours y → y ≠ x ∧ y ∈ s.toWake := by
    intro y hy
    have hmem : y ∈ s.toWake.erase x := hy.resolve_right fun h => by simp [hp] at h
    exact ⟨fun h => hnd.not_mem_erase (h ▸ hmem), List.mem_of_mem_erase hmem⟩
  refine hg.next (fun y hy => Or.inl (hne y hy).2) (fun y hy => ?_) (fun y hy k hk => ?_) hplace
  · exact Function.update_of_ne (hne y hy).1 _ _
  · by_cases hkm : k = m
    · subst hkm
      have hor : y ∈ (s.mu k).waiters ∨ y = x := by simpa [State.transfer] using hk
      exact hor.resolve_right (hne y hy).1
    · simpa [State.transfer, hkm] using hk

section

variable {m : M} {cant fw tw wr : Bool} {c : Cas α} {f x : α} {dn rest : List α} {p : Pc α M}

theorem InLoop.not_mem (hl : InLoop nw₀ L s m cant fw tw wr c f dn (x :: rest)) (hL : L.Nodup) :
    x ∉ dn ∧ x ∉ rest := by
  rw [hl.split] at hL
  have hnd := List.nodup_append.mp hL
  exact ⟨fun h => hnd.2.2 x h x List.mem_cons_self rfl, (List.nodup_cons.mp hnd.2.1).1⟩

theorem InLoop.nodup (hl : InLoop nw₀ L s m cant fw tw wr c f dn rest) (hL : L.Nodup) :
    s.toWake.Nodup := by
  rw [hl.toWake]
  rw [hl.split] at hL
  exact hL.sublist (List.Sublist.append_right List.filter_sublist rest)

theorem InLoop.nextIn_eq (hl : InLoop nw₀ L s m cant fw tw wr c f dn (x :: rest)) (hL : L.Nodup) :
    nextIn s.toWake x = rest.head? := by
  rw [hl.toWake]
  exact nextIn_append fun h => (hl.not_mem hL).1 (List.mem_of_mem_filter h)

/-- The next record is moved. -/
theorem InLoop.move (hl : InLoop nw₀ L s m cant fw tw wr c f dn (x :: rest)) (hL : L.Nodup)
    (hx : moves nw₀ L (some c) x = true) (hnw : s.nw x = nw₀ x) :
    InLoop nw₀ L { s.transfer m x with pc := p } m cant fw (tw || (nw₀ x).isWriter) wr c f
      (dn ++ [x]) rest := by
  obtain ⟨hdn, hrest⟩ := hl.not_mem hL
  refine ⟨hl.acquired, hl.cas, hl.first, hl.cant, hl.firstIsWriter, ?_, ?_, ?_, ⟨?_, ?_⟩, ?_, ?_,
    hl.cleared, hl.posted, hl.requested⟩
  · rw [hl.split]
    simp
  · have hnot : x ∉ dn.filter fun y => !moves nw₀ L (some c) y :=
      fun h => hdn (List.mem_of_mem_filter h)
    change s.toWake.erase x = _
    rw [hl.toWake, List.erase_append_right _ hnot]
    simp [hx]
  · change s.moved ++ [x] = _
    rw [hl.moved]
    simp [hx]
  · simp [State.transfer, hl.held.queue]
  · intro y hy
    rcases List.mem_append.mp hy with hold | hy
    · have hyx : y ≠ x := by
        rintro rfl
        rw [hl.moved] at hold
        exact hdn (List.mem_of_mem_filter hold)
      exact (Function.update_of_ne hyx _ _).trans (hl.held.records y hold)
    · rw [List.mem_singleton.mp hy]
      simp [State.transfer, hnw]
  · simp [State.transfer, hl.transferredAWriter]
  · rw [hl.wokeAReader]
    simp [hx]

/-- The next record is left to be woken. -/
theorem InLoop.leave (hl : InLoop nw₀ L s m cant fw tw wr c f dn (x :: rest))
    (hx : moves nw₀ L (some c) x = false) :
    InLoop nw₀ L { s with pc := p } m cant fw tw (wr || (nw₀ x).nativeReader) c f
      (dn ++ [x]) rest := by
  refine ⟨hl.acquired, hl.cas, hl.first, hl.cant, hl.firstIsWriter, ?_, ?_, ?_,
    ⟨hl.held.1, hl.held.2⟩, hl.transferredAWriter, ?_, hl.cleared, hl.posted, hl.requested⟩
  · rw [hl.split]
    simp
  · change s.toWake = _
    rw [hl.toWake]
    simp [hx]
  · change s.moved = _
    rw [hl.moved]
    simp [hx]
  · rw [hl.wokeAReader]
    simp [hx]

theorem Good.step_first (hg : Good nw₀ L s) (hL : L.Nodup) {n : Option α}
    (hpc : s.pc = .first f m cant n) (h : step s = some s') : Good nw₀ L s' := by
  have hplace := hg.place
  rw [hpc] at hplace
  obtain ⟨hf, hfirst, hn, c, hac, hok, hq, hcant⟩ := hplace
  obtain ⟨l, hl⟩ := hfirst.head
  have hnw := hg.kept f (hfirst.ours hf)
  have hloop : InLoop nw₀ L s m cant (nw₀ f).isWriter false false c f [] (f :: l) := by
    refine ⟨hac, hok, hfirst, hcant, rfl, hl, ?_, hf.moved, ⟨?_, ?_⟩, ?_, rfl, hf.cleared, hf.posted,
      hf.requested⟩
    · rw [hf.toWake]
      exact hl
    · simp [hq, hf.moved]
    · simp [hf.moved]
    · simp [hf.moved]
  have hhead : n = l.head? := by rw [hn, hl, List.tail_cons]
  have hmoves : moves nw₀ L (some c) f = cant := by
    have hw := hok.cant_of_writer hfirst
    rw [← hcant] at hw
    simp only [moves, hfirst.mucv, ← hcant, Bool.true_and]
    cases hwr : (nw₀ f).isWriter with
    | false => simp
    | true => simp [hw hwr]
  simp only [step, hpc, hnw] at h
  split at h
  case isTrue hc =>
    cases h
    refine hg.transfer m (hloop.nodup hL) rfl ⟨c, f, [f], l, hhead, ?_⟩
    have hmv := hloop.move (p := .loop m cant (nw₀ f).isWriter (nw₀ f).isWriter false n) hL
      (hmoves.trans hc) hnw
    simpa using hmv
  case isFalse hc =>
    cases h
    refine hg.goto rfl ⟨c, f, [f], l, hhead, ?_⟩
    have hmv := hloop.leave (p := .loop m cant (nw₀ f).isWriter false (!(nw₀ f).isWriter) n)
      (hmoves.trans (by simpa using hc))
    simpa [Nw.nativeReader, hfirst.mucv] using hmv

/-- One round of the loop. -/
theorem Good.loop_round (hg : Good nw₀ L s) (hL : L.Nodup)
    (hpc : s.pc = .loop m cant fw tw wr (some x))
    (hl : InLoop nw₀ L s m cant fw tw wr c f dn (x :: rest)) :
    ∃ u tw' wr', Wake.step s = some u ∧ u.pc = .loop m cant fw tw' wr' rest.head? ∧
      InLoop nw₀ L u m cant fw tw' wr' c f (dn ++ [x]) rest ∧ Good nw₀ L u := by
  have hnw : s.nw x = nw₀ x := hg.kept x (Or.inl (by rw [hl.toWake]; simp))
  have hmoves : moves nw₀ L (some c) x = ((nw₀ x).mucv && (cant || fw || (nw₀ x).isWriter)) := by
    have hw := hl.cas.cant_of_writer hl.first
    rw [← hl.cant, ← hl.firstIsWriter] at hw
    simp only [moves, ← hl.cant]
    cases fw with
    | false => simp
    | true => simp [hw rfl]
  cases hm : (nw₀ x).mucv with
  | false =>
    have hlv := hl.leave (p := .loop m cant fw tw wr rest.head?) (by simp [hmoves, hm])
    simp only [Nw.nativeReader, hm, Bool.false_and, Bool.or_false] at hlv
    refine ⟨_, tw, wr, ?_, rfl, hlv, hg.goto rfl ⟨c, f, dn ++ [x], rest, rfl, hlv⟩⟩
    simp only [Wake.step, hpc, hnw, hl.nextIn_eq hL, hm, if_true]
  | true =>
    rw [hm, Bool.true_and] at hmoves
    cases hmv : cant || fw || (nw₀ x).isWriter with
    | true =>
      have hmo := hl.move (p := .loop m cant fw (tw || (nw₀ x).isWriter) wr rest.head?) hL
        (hmoves.trans hmv) hnw
      refine ⟨_, _, wr, ?_, rfl, hmo,
        hg.transfer m (hl.nodup hL) rfl ⟨c, f, dn ++ [x], rest, rfl, hmo⟩⟩
      simp only [Wake.step, hpc, hnw, hl.nextIn_eq hL, hm, Bool.true_and, hmv, if_true, reduceCtorEq,
        if_false]
    | false =>
      have hlv := hl.leave (p := .loop m cant fw tw (wr || !(nw₀ x).isWriter) rest.head?)
        (hmoves.trans hmv)
      simp only [Nw.nativeReader, hm, Bool.true_and] at hlv
      refine ⟨_, tw, _, ?_, rfl, hlv, hg.goto rfl ⟨c, f, dn ++ [x], rest, rfl, hlv⟩⟩
      simp only [Wake.step, hpc, hnw, hl.nextIn_eq hL, hm, Bool.true_and, hmv, reduceCtorEq, if_false]

/-- The end of the loop. -/
theorem Good.loop_end (hg : Good nw₀ L s) (hl : InLoop nw₀ L s m cant fw tw wr c f dn []) :
    Good nw₀ L { s with
      pc := .releaseLoad m (tw && !wr)
      requested := tw && !wr } := by
  have hsplit : L = dn := by simpa using hl.split
  subst hsplit
  refine hg.next (fun y hy => Or.inl (hy.resolve_right fun h => by cases h)) (fun _ _ => rfl)
    (fun _ _ _ hy => hy) ⟨⟨?_, ?_, ?_⟩, ?_, hl.cleared, hl.posted, rfl, c, hl.acquired, hl.held.1,
      hl.held.2⟩
  · change s.moved = L.filter (moves nw₀ L s.acquired)
    rw [hl.acquired, hl.moved]
  · change (tw && !wr) = (s.moved.any _ && !(left nw₀ L s).any _)
    rw [left, hl.acquired, hl.transferredAWriter, hl.wokeAReader]
  · intro c' hc'
    rw [← Option.some.inj (hl.acquired.symm.trans hc')]
    exact hl.cas
  · change s.toWake = left nw₀ L s
    rw [left, hl.acquired, hl.toWake, List.append_nil]

theorem Good.step_loop (hg : Good nw₀ L s) (hL : L.Nodup) {q : Option α}
    (hpc : s.pc = .loop m cant fw tw wr q) (h : step s = some s') : Good nw₀ L s' := by
  have hplace := hg.place
  rw [hpc] at hplace
  obtain ⟨c, f, dn, rest, rfl, hl⟩ := hplace
  cases rest with
  | nil =>
    simp only [step, hpc, List.head?_nil] at h
    cases h
    exact hg.loop_end hl
  | cons x rest =>
    obtain ⟨u, tw', wr', hu, -, -, hgu⟩ := hg.loop_round hL hpc hl
    rw [hu] at h
    cases h
    exact hgu

/-! ### The release and the last loop -/

theorem Good.step_releaseLoad (hg : Good nw₀ L s) {b : Bool} (hpc : s.pc = .releaseLoad m b)
    (h : step s = some s') : Good nw₀ L s' := by
  have hplace := hg.place
  rw [hpc] at hplace
  obtain ⟨hd, hw, hc, hp, hset, c, hac, hh⟩ := hplace
  simp only [step, hpc] at h
  cases h
  exact hg.goto rfl ⟨⟨hd.1, hd.2, hd.3⟩, hw, hc, hp, hset, c, hac, hh.1, hh.2⟩

theorem Good.step_releaseCas (hg : Good nw₀ L s) {b : Bool} {old : Word}
    (hpc : s.pc = .releaseCas m b old) (h : step s = some s') : Good nw₀ L s' := by
  have hplace := hg.place
  rw [hpc] at hplace
  obtain ⟨hd, hw, hc, hp, hset, c, hac, hh⟩ := hplace
  simp only [step, hpc] at h
  split at h
  case isTrue =>
    cases h
    refine hg.next (fun y hy => Or.inl (hy.resolve_right fun h => by cases h)) (fun _ _ => rfl)
      (fun x _ k hx => ?_) ⟨⟨hd.1, hd.2, hd.3⟩, ?_, hp.trans hc.symm, rfl⟩
    · by_cases hk : k = m
      · subst hk
        simpa [State.toWakeLoop, State.setWord] using hx
      · simpa [State.toWakeLoop, State.setWord, hk] using hx
    · change left nw₀ L s = s.cleared ++ s.toWake
      rw [hc, hw, List.nil_append]
  case isFalse =>
    cases h
    exact hg.goto rfl ⟨⟨hd.1, hd.2, hd.3⟩, hw, hc, hp, hset, c, hac, hh.1, hh.2⟩

theorem Good.step_wake (hg : Good nw₀ L s) {q : Option α} (hpc : s.pc = .wake q)
    (h : step s = some s') : Good nw₀ L s' := by
  have hplace := hg.place
  rw [hpc] at hplace
  obtain ⟨hd, hleft, hp, hq⟩ := hplace
  cases hw : s.toWake with
  | nil =>
    rw [hw, List.head?_nil] at hq
    subst hq
    simp only [step, hpc] at h
    cases h
    refine hg.goto rfl ⟨⟨hd.1, hd.2, hd.3⟩, ?_, hp, hw⟩
    rw [hw, List.append_nil] at hleft
    exact hleft
  | cons x l =>
    rw [hw, List.head?_cons] at hq
    subst hq
    simp only [step, hpc, hw, List.erase_cons_head,
      show nextIn (x :: l) x = l.head? from nextIn_append List.not_mem_nil] at h
    cases h
    refine hg.next (fun y hy => ?_) (fun _ _ => rfl) (fun _ _ _ hy => hy)
      ⟨⟨hd.1, hd.2, hd.3⟩, ?_, hp, rfl⟩
    · refine Or.inl ?_
      rw [hw]
      rcases hy with hy | hy
      · exact List.mem_cons_of_mem x hy
      · rw [← Option.some.inj hy]
        exact List.mem_cons_self
    · change left nw₀ L s = s.cleared ++ x :: l
      rw [hleft, hw]

theorem left_sublist (nw₀ : α → Nw M) (L : List α) (s : State α M) : (left nw₀ L s).Sublist L :=
  List.filter_sublist

theorem Good.step_clear (hg : Good nw₀ L s) (hL : L.Nodup) {n : Option α} (hpc : s.pc = .clear x n)
    (h : step s = some s') : Good nw₀ L s' := by
  have hplace := hg.place
  rw [hpc] at hplace
  obtain ⟨hd, hleft, hp, hn⟩ := hplace
  simp only [step, hpc] at h
  cases h
  have hx : x ∉ s.toWake := by
    have hnd := (left_sublist nw₀ L s).nodup hL
    rw [hleft] at hnd
    exact (List.nodup_cons.mp (List.nodup_append.mp hnd).2.1).1
  refine hg.next (fun y hy => Or.inl (hy.resolve_right fun h => by cases h)) (fun y hy => ?_)
    (fun _ _ _ hy => hy) ⟨⟨hd.1, hd.2, hd.3⟩, ?_, ?_, hn⟩
  · have hy' : y ∈ s.toWake := hy.resolve_right fun h => by cases h
    have hyx : y ≠ x := fun h => hx (h ▸ hy')
    exact Function.update_of_ne hyx _ _
  · change left nw₀ L s = (s.cleared ++ [x]) ++ s.toWake
    rw [hleft]
    simp
  · change s.cleared ++ [x] = s.posted ++ [x]
    rw [hp]

theorem Good.step_post (hg : Good nw₀ L s) {n : Option α} (hpc : s.pc = .post x n)
    (h : step s = some s') : Good nw₀ L s' := by
  have hplace := hg.place
  rw [hpc] at hplace
  obtain ⟨hd, hleft, hp, hn⟩ := hplace
  simp only [step, hpc] at h
  cases h
  exact hg.next (fun y hy => Or.inl (hy.resolve_right fun h => by cases h)) (fun _ _ => rfl)
    (fun _ _ _ hy => hy) ⟨⟨hd.1, hd.2, hd.3⟩, hleft, hp.symm, hn⟩

end

theorem Good.step (hg : Good nw₀ L s) (hL : L.Nodup) (h : step s = some s') : Good nw₀ L s' := by
  cases hpc : s.pc with
  | start => exact hg.step_start hpc h
  | load f m => exact hg.step_load hpc h
  | cas f m old n => exact hg.step_cas hpc h
  | first f m cant n => exact hg.step_first hL hpc h
  | loop m cant fw tw wr q => exact hg.step_loop hL hpc h
  | releaseLoad m b => exact hg.step_releaseLoad hpc h
  | releaseCas m b old => exact hg.step_releaseCas hpc h
  | wake q => exact hg.step_wake hpc h
  | clear x n => exact hg.step_clear hL hpc h
  | post x n => exact hg.step_post hpc h
  | done => simp [Wake.step, hpc] at h

theorem Called.good {mu : Option M} (hc : Called L mu s) : Good s.nw L s := by
  have hours : ∀ x, s.Ours x → x ∈ L := by
    intro x hx
    rcases hx with hx | hx
    · exact hc.toWake ▸ hx
    · rw [hc.pc] at hx
      cases hx
  refine ⟨fun _ _ => rfl, fun x hx => hc.unlisted x (hours x hx), ?_⟩
  rw [hc.pc]
  exact ⟨⟨hc.toWake, hc.moved, hc.cleared, hc.posted, hc.requested⟩, hc.acquired⟩

theorem Called.reach {mu : Option M} {s₀ : State α M} (hc : Called L mu s₀)
    (h : Relation.ReflTransGen Steps s₀ s) : Good s₀.nw L s := by
  induction h with
  | refl => exact hc.good
  | tail _ hs ih =>
    rcases hs with hs | hs
    · exact ih.step hc.nodup hs
    · exact ih.interferes hs

end Nsync.Cv.Wake
