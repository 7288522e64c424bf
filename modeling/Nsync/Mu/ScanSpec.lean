import Nsync.Mu.Run

/-!
# What the wake-up scan computes

The scan of `nsync_mu_unlock_slow_` goes through the queue in batches, skips rings
of false conditions, stops early, and gathers two bit masks on the way.  Its
result depends only on the sequence of waiters that it has picked up: the first
one that could acquire is woken, and if that is a reader, every other reader that
could acquire.
-/

namespace Nsync.Mu

open Nsync.Lib

variable {T σ : Type} [DecidableEq T]

/-! ## The choice -/

/-- Of the waiters `D`, in this order, those in `wake` are to be woken and those in
`left` are not.  A waiter `x` is *eligible* if `el x`, and `ty x` is its mode. -/
structure Chosen (el : T → Bool) (ty : T → Mode) (D wake left : List T) (wakeType : Option Mode)
    (setWriterWaiting setAllFalse : Bool) : Prop where
  nobody : wakeType = none → wake = [] ∧ D.filter el = []
  writer : wakeType = some .writer → ∃ x, (D.filter el).head? = some x ∧ ty x = .writer ∧ wake = [x]
  reader : wakeType = some .reader → (∃ x, (D.filter el).head? = some x ∧ ty x = .reader) ∧
    wake = (D.filter el).filter fun x => ty x = .reader
  left_eq : left = D.filter fun x => x ∉ wake
  writerWaiting : setWriterWaiting = true ↔
    wakeType = some .reader ∧ ∃ x ∈ D, el x = true ∧ ty x = .writer
  allFalse : setAllFalse = true → ∀ x ∈ left, el x = false

namespace Chosen

variable {el el' : T → Bool} {ty ty' : T → Mode} {D wake left k : List T} {wt : Option Mode}
  {ww af : Bool} {x : T}

theorem empty : Chosen el ty [] [] [] none false true := by
  refine ⟨fun _ => ⟨rfl, rfl⟩, ?_, ?_, rfl, ?_, ?_⟩ <;> simp

theorem congr (h : Chosen el ty D wake left wt ww af) (he : ∀ x ∈ D, el' x = el x)
    (ht : ∀ x ∈ D, ty' x = ty x) : Chosen el' ty' D wake left wt ww af := by
  have hfilter : D.filter el' = D.filter el := List.filter_congr he
  have hmem : ∀ {y}, y ∈ D.filter el → y ∈ D := fun hy => (List.mem_filter.mp hy).1
  refine ⟨fun hn => hfilter ▸ h.nobody hn, fun hw => ?_, fun hr => ?_, h.left_eq, ?_, fun ha x hx => ?_⟩
  · obtain ⟨x, hx, hty, hwake⟩ := h.writer hw
    exact ⟨x, hfilter ▸ hx, (ht x (hmem (List.mem_of_mem_head? hx))).trans hty, hwake⟩
  · obtain ⟨⟨x, hx, hty⟩, hwake⟩ := h.reader hr
    rw [hfilter]
    refine ⟨⟨x, hx, (ht x (hmem (List.mem_of_mem_head? hx))).trans hty⟩, hwake.trans ?_⟩
    apply List.filter_congr
    intro y hy
    rw [ht y (hmem hy)]
  · rw [h.writerWaiting]
    refine and_congr Iff.rfl (exists_congr fun y => and_congr_right fun hy => ?_)
    rw [he y hy, ht y hy]
  · have hxD : x ∈ D := by
      rw [h.left_eq] at hx
      exact (List.mem_filter.mp hx).1
    rw [he x hxD, h.allFalse ha x hx]

theorem wake_subset (h : Chosen el ty D wake left wt ww af) (hx : x ∈ wake) : x ∈ D := by
  rcases wt with _ | _ | _
  · rw [(h.nobody rfl).1] at hx
    cases hx
  · rw [(h.reader rfl).2] at hx
    exact (List.mem_filter.mp (List.mem_filter.mp hx).1).1
  · obtain ⟨y, hy, -, hwake⟩ := h.writer rfl
    rw [hwake, List.mem_singleton] at hx
    exact hx ▸ (List.mem_filter.mp (List.mem_of_mem_head? hy)).1

/-- Waiters behind the others that are not woken stay behind them. -/
theorem left_append (h : Chosen el ty D wake left wt ww af) (hd : ∀ x ∈ k, x ∉ D) :
    left ++ k = (D ++ k).filter fun x => x ∉ wake := by
  have hk : k.filter (fun x => decide (x ∉ wake)) = k := by
    rw [List.filter_eq_self]
    intro x hx
    simpa using fun hw => hd x hx (h.wake_subset hw)
  rw [List.filter_append, hk, ← h.left_eq]

/-- Waiters that are not eligible are passed over. -/
theorem skip (h : Chosen el ty D wake left wt ww af) (hd : ∀ x ∈ k, x ∉ D)
    (hf : ∀ x ∈ k, el x = false) : Chosen el ty (D ++ k) wake (left ++ k) wt ww af := by
  have hk : k.filter el = [] := by
    rw [List.filter_eq_nil_iff]
    intro x hx
    simp [hf x hx]
  have hfilter : (D ++ k).filter el = D.filter el := by
    rw [List.filter_append, hk, List.append_nil]
  refine ⟨fun hn => hfilter ▸ h.nobody hn, fun hw => hfilter ▸ h.writer hw,
    fun hr => hfilter ▸ h.reader hr, h.left_append hd, ?_, fun ha x hx => ?_⟩
  · rw [h.writerWaiting]
    refine and_congr Iff.rfl ⟨?_, ?_⟩
    · rintro ⟨y, hy, hye⟩
      exact ⟨y, List.mem_append_left k hy, hye⟩
    · rintro ⟨y, hy, hel, hty⟩
      rcases List.mem_append.mp hy with hy | hy
      · exact ⟨y, hy, hel, hty⟩
      · cases (hf y hy).symm.trans hel
  · rcases List.mem_append.mp hx with hx | hx
    · exact h.allFalse ha x hx
    · exact hf x hx

theorem left_snoc (h : Chosen el ty D wake left wt ww af) (hx : x ∉ D) :
    left = (D ++ [x]).filter fun y => y ∉ wake ++ [x] := by
  have hD : D.filter (fun y => decide (y ∉ wake ++ [x])) = D.filter fun y => y ∉ wake := by
    apply List.filter_congr
    intro y hy
    have hyx : y ≠ x := by
      rintro rfl
      exact hx hy
    simp [hyx]
  rw [List.filter_append, hD, ← h.left_eq]
  simp

/-- The first eligible waiter is woken. -/
theorem wakeFirst (h : Chosen el ty D wake left none ww af) (hx : x ∉ D) (he : el x = true) :
    Chosen el ty (D ++ [x]) (wake ++ [x]) left (some (ty x)) ww af := by
  obtain ⟨hwake, hnil⟩ := h.nobody rfl
  have hfilter : (D ++ [x]).filter el = [x] := by
    rw [List.filter_append, hnil]
    simp [he]
  have hww : ww = false := by
    rw [← Bool.not_eq_true, h.writerWaiting]
    simp
  refine ⟨nofun, fun hw => ?_, fun hr => ?_, h.left_snoc hx, ?_, h.allFalse⟩
  · exact ⟨x, by rw [hfilter]; rfl, Option.some.inj hw, by rw [hwake]; rfl⟩
  · have hr : ty x = .reader := Option.some.inj hr
    rw [hfilter, hwake]
    exact ⟨⟨x, rfl, hr⟩, by simp [hr]⟩
  · rw [hww]
    refine ⟨nofun, ?_⟩
    rintro ⟨hr, y, hy, hel, hty⟩
    have hyx : y ∈ (D ++ [x]).filter el := List.mem_filter.mpr ⟨hy, hel⟩
    rw [hfilter, List.mem_singleton] at hyx
    rw [← hyx, hty] at hr
    cases hr

/-- With a reader, other readers are woken. -/
theorem wakeReader (h : Chosen el ty D wake left (some .reader) ww af) (hx : x ∉ D)
    (he : el x = true) (hr : ty x = .reader) :
    Chosen el ty (D ++ [x]) (wake ++ [x]) left (some .reader) ww af := by
  obtain ⟨⟨y, hy, hty⟩, hwake⟩ := h.reader rfl
  have hfilter : (D ++ [x]).filter el = D.filter el ++ [x] := by
    rw [List.filter_append]
    simp [he]
  refine ⟨nofun, nofun, fun _ => ⟨⟨y, ?_, hty⟩, ?_⟩, h.left_snoc hx, ?_, h.allFalse⟩
  · rw [hfilter, List.head?_append, hy]
    rfl
  · rw [hfilter, List.filter_append, ← hwake]
    simp [hr]
  · rw [h.writerWaiting]
    refine and_congr Iff.rfl ⟨?_, ?_⟩
    · rintro ⟨z, hz, hze⟩
      exact ⟨z, List.mem_append_left _ hz, hze⟩
    · rintro ⟨z, hz, hel, hw⟩
      rcases List.mem_append.mp hz with hz | hz
      · exact ⟨z, hz, hel, hw⟩
      · rw [List.mem_singleton.mp hz, hr] at hw
        cases hw

/-- With a reader, a writer is not woken. -/
theorem passWriter (h : Chosen el ty D wake left (some .reader) ww af) (hx : x ∉ D)
    (he : el x = true) (hw : ty x = .writer) :
    Chosen el ty (D ++ [x]) wake (left ++ [x]) (some .reader) true false := by
  obtain ⟨⟨y, hy, hty⟩, hwake⟩ := h.reader rfl
  have hfilter : (D ++ [x]).filter el = D.filter el ++ [x] := by
    rw [List.filter_append]
    simp [he]
  refine ⟨nofun, nofun, fun _ => ⟨⟨y, ?_, hty⟩, ?_⟩, ?_, ?_, nofun⟩
  · rw [hfilter, List.head?_append, hy]
    rfl
  · rw [hfilter, List.filter_append, ← hwake]
    simp [hw]
  · exact h.left_append (by simpa using hx)
  · exact ⟨fun _ => ⟨rfl, x, by simp, he, hw⟩, fun _ => rfl⟩

/-- With a writer, nobody else is woken. -/
theorem stop (h : Chosen el ty D wake left (some .writer) ww af) (hd : ∀ x ∈ k, x ∉ D) {af' : Bool}
    (hf : af' = true → af = true ∧ k = []) :
    Chosen el ty (D ++ k) wake (left ++ k) (some .writer) ww af' := by
  obtain ⟨x, hx, hty, hwake⟩ := h.writer rfl
  refine ⟨nofun, fun _ => ⟨x, ?_, hty, hwake⟩, nofun, h.left_append hd, ?_, fun ha => ?_⟩
  · rw [List.filter_append, List.head?_append, hx]
    rfl
  · rw [h.writerWaiting]
    simp
  · obtain ⟨haf, rfl⟩ := hf ha
    rw [List.append_nil]
    exact h.allFalse haf

end Chosen

/-! ## A scan and what happens meanwhile -/

/-- Thread `t` is about to take the spinlock in order to look for waiters, and
finds a well-formed queue. -/
structure Starts (E : Env σ) (C : WaitCondition → Prop) (t : T) (m : Mode) (k : UnlockCont)
    (s : State T σ) : Prop where
  pc : s.pc t = .unlockSlow m k (.grab s.word)
  nodup : s.waiters.Nodup
  rings : Segmented s.links (SameTruth E C s.wtr) s.waiters
  conds : ∀ x c, (s.wtr x).cond = some c → C c
  condition : ∀ x ∈ s.waiters, (s.wtr x).cond ≠ none → s.word &&& muCondition ≠ 0#32

/-- The waiters that a scanning thread has taken from the mutex. -/
def Pc.taken (p : Pc T) : List T := p.wake ++ p.priv

/-- What the others may do while `t` scans: they leave its waiters and the
protected state alone, and the queue of the mutex as long as `t` has the
spinlock.  Otherwise they may leave any well-formed queue there. -/
structure Meanwhile (E : Env σ) (C : WaitCondition → Prop) (t : T) (s s' : State T σ) : Prop where
  pc : s'.pc t = s.pc t
  prot : s'.prot = s.prot
  wtr : ∀ x ∈ (s.pc t).taken, (s'.wtr x).cond = (s.wtr x).cond ∧ (s'.wtr x).lType = (s.wtr x).lType
  links : ∀ x ∈ (s.pc t).priv,
    s'.links.next x = s.links.next x ∧ s'.links.prev x = s.links.prev x
  nodup : ((s.pc t).taken ++ s'.waiters).Nodup
  rings : Segmented s'.links (SameTruth E C s'.wtr) s'.waiters
  conds : ∀ x c, (s'.wtr x).cond = some c → C c
  spin : (view s'.word).spin = (view s.word).spin
  locked : (view s.word).spin = true → s'.waiters = s.waiters ∧ ∀ x ∈ s.waiters,
    (s'.wtr x).cond = (s.wtr x).cond ∧ (s'.wtr x).lType = (s.wtr x).lType

/-- The places of the scan before its end. -/
def UnlockSlowPc.scanning : UnlockSlowPc T → Bool
  | .scanRelease _ _ | .scan _ | .scanRemove _ _ _ | .scanSpin _ _ => true
  | _ => false

/-- The waiters that a step has taken from the mutex. -/
def tookOver (s s' : State T σ) : List T := if s'.waiters = [] then s.waiters else []

/-- Thread `t` has picked up the waiters `taken`, in this order, in one or more
batches, and is in state `s`. -/
inductive Scanning (E : Env σ) (C : WaitCondition → Prop) (t : T) (m : Mode) (k : UnlockCont) :
    List T → State T σ → Prop where
  | start {s : State T σ} (h : Starts E C t m k s) :
      Scanning E C t m k s.waiters (muUnlockSlow E s t m k (.grab s.word))
  | own {taken : List T} {s : State T σ} {p : UnlockSlowPc T} (h : Scanning E C t m k taken s)
      (hpc : s.pc t = .unlockSlow m k p) (hp : p.scanning = true) :
      Scanning E C t m k (taken ++ tookOver s (muUnlockSlow E s t m k p))
        (muUnlockSlow E s t m k p)
  | other {taken : List T} {s s' : State T σ} (h : Scanning E C t m k taken s)
      (hm : Meanwhile E C t s s') : Scanning E C t m k taken s'

/-! ## The invariant -/

/-- The lists of a scanning thread are disjoint and well formed. -/
structure Sound (E : Env σ) (C : WaitCondition → Prop) (s : State T σ) (wake old new : List T) :
    Prop where
  nodup : (wake ++ (old ++ new) ++ s.waiters).Nodup
  conds : ∀ x c, (s.wtr x).cond = some c → C c
  old : Segmented s.links (SameTruth E C s.wtr) old
  new : Segmented s.links (SameTruth E C s.wtr) new
  queue : Segmented s.links (SameTruth E C s.wtr) s.waiters

/-- The choice that the locals of a scan describe, for the waiters `D`. -/
def Scan.Chosen (E : Env σ) (s : State T σ) (sc : Scan T) (D left : List T) : Prop :=
  Mu.Chosen (conditionTrue E s) (fun x => (s.wtr x).lType) D sc.wake left sc.wakeType
    sc.setWriterWaiting sc.setAllFalse

/-- Between two rounds of the outer loop. -/
structure BetweenRounds (E : Env σ) (C : WaitCondition → Prop) (s : State T σ) (sc : Scan T)
    (taken : List T) : Prop where
  sound : Sound E C s sc.wake sc.waiters []
  chosen : sc.Chosen E s taken sc.waiters
  untested : sc.testing = false → ∀ y ∈ s.waiters, (s.wtr y).cond = none

/-- In a round of the outer loop, with `done` behind and `rest` to come. -/
structure InRound (E : Env σ) (C : WaitCondition → Prop) (s : State T σ) (sc : Scan T)
    (taken done rest : List T) : Prop where
  sound : Sound E C s sc.wake sc.waiters sc.newWaiters
  split : sc.newWaiters = done ++ rest
  head : rest.head? = sc.p
  chosen : ∃ D, taken = D ++ rest ∧ sc.Chosen E s D (sc.waiters ++ done)
  untested : sc.testing = false → s.waiters = [] ∧ (sc.wakeType = some .writer ∨
    (∀ y ∈ rest, (s.wtr y).cond = none) ∨
    (sc.wakeType = none ∧ ∃ x, sc.p = some x ∧ (s.wtr x).lType = .writer ∧ (s.wtr x).cond = none))

/-- At the end of a round, before its waiters are appended to the others. -/
structure RoundDone (E : Env σ) (C : WaitCondition → Prop) (s : State T σ) (sc : Scan T)
    (taken : List T) : Prop where
  sound : Sound E C s sc.wake sc.waiters sc.newWaiters
  chosen : sc.Chosen E s taken (sc.waiters ++ sc.newWaiters)
  untested : sc.testing = false → s.waiters = []

/-- What the scan has decided, when the queue has been given back. -/
structure Decided (E : Env σ) (s : State T σ) (r : Release T) (taken : List T) : Prop where
  chosen : ∃ wt, Mu.Chosen (conditionTrue E s) (fun x => (s.wtr x).lType) taken r.wake s.waiters wt
    r.setWriterWaiting r.setAllFalse
  noneLeft : r.noneLeft = s.waiters.isEmpty

def ScanOk (E : Env σ) (C : WaitCondition → Prop) (t : T) (taken : List T) (s : State T σ) : Prop :=
  match s.pc t with
  | .unlockSlow _ _ (.scanRelease sc _) => (view s.word).spin = true ∧ sc.testing = true ∧
      ∃ done rest, InRound E C s sc taken done rest
  | .unlockSlow _ _ (.scan sc) => (view s.word).spin = !sc.testing ∧
      ∃ done rest, InRound E C s sc taken done rest
  | .unlockSlow _ _ (.scanRemove sc x _) => (view s.word).spin = !sc.testing ∧
      (∃ done rest, InRound E C s sc taken done (x :: rest)) ∧ conditionTrue E s x = true ∧
      sc.wakeType ≠ some .writer ∧ (sc.wakeType = none ∨ (s.wtr x).lType = .reader)
  | .unlockSlow _ _ (.scanSpin sc _) => (view s.word).spin = false ∧ sc.testing = true ∧
      RoundDone E C s sc taken
  | .unlockSlow _ _ (.final r _) => (view s.word).spin = true ∧ Decided E s r taken
  | _ => False

section

variable {E : Env σ} {C : WaitCondition → Prop} {s s' : State T σ} {sc : Scan T} {t : T} {m : Mode}
  {k : UnlockCont} {taken done rest wake old new : List T}

omit [DecidableEq T] in
theorem tookOver_of_eq (h : s'.waiters = s.waiters) : tookOver s s' = [] := by
  rw [tookOver, h]
  split_ifs with hn
  · exact hn
  · rfl

theorem tookOver_scanNext {s₁ : State T σ} (h : s₁.waiters = s.waiters) :
    tookOver s (scanNext s₁ t m k sc) = s.waiters := by
  cases hw : s.waiters with
  | nil => simp [tookOver, hw]
  | cons x l =>
      obtain ⟨b, -, -, heq⟩ := scanNext_cons t m k sc (h.trans hw)
      rw [heq]
      simp [tookOver, hw]

/-! ### The outer loop -/

theorem BetweenRounds.next (hb : BetweenRounds E C s sc taken) (hspin : (view s.word).spin = true) :
    ScanOk E C t (taken ++ s.waiters) (scanNext s t m k sc) := by
  cases hw : s.waiters with
  | nil =>
      rw [scanNext_nil hw]
      simp only [ScanOk, State.setPc, Function.update_self, List.append_nil]
      exact ⟨hspin, ⟨_, hb.chosen⟩, rfl⟩
  | cons x l =>
      obtain ⟨testing, htest, huntest, heq⟩ := scanNext_cons t m k sc hw
      rw [heq]
      have hround : InRound E C
          { s.setPc t (.unlockSlow m k (sc.round testing s.waiters).roundPc) with waiters := [] }
          (sc.round testing s.waiters) (taken ++ s.waiters) [] s.waiters := by
        refine ⟨⟨?_, hb.sound.conds, hb.sound.old, hb.sound.queue, .nil⟩, rfl, rfl,
          ⟨taken, rfl, ?_⟩, fun ht => ⟨rfl, ?_⟩⟩
        · have := hb.sound.nodup
          simp only [Scan.round, List.append_nil] at this ⊢
          simpa [List.append_assoc] using this
        · rw [List.append_nil]
          exact hb.chosen
        · rcases huntest ht with ht | hwt | ⟨hwt, hm, hc⟩
          · exact Or.inr (Or.inl (hb.untested ht))
          · exact Or.inl hwt
          · exact Or.inr (Or.inr ⟨hwt, x, by simp [Scan.round, hw], hm, hc⟩)
      rw [← hw]
      cases testing with
      | true =>
          simp only [ScanOk, State.setPc, Function.update_self, Scan.roundPc, Scan.round, if_true]
          exact ⟨hspin, trivial, [], s.waiters, hround⟩
      | false =>
          simp only [ScanOk, State.setPc, Function.update_self, Scan.roundPc, Scan.round,
            Bool.false_eq_true, if_false]
          exact ⟨hspin, [], s.waiters, hround⟩

theorem RoundDone.append (hd : RoundDone E C s sc taken) (hspin : (view s.word).spin = true) :
    ScanOk E C t (taken ++ s.waiters) (scanAppend E s t m k sc) := by
  have hnd := hd.sound.nodup
  have hnd' : (sc.waiters ++ sc.newWaiters).Nodup :=
    (List.nodup_append.mp (List.nodup_append.mp hnd).1).2.1
  obtain ⟨hseg, hout⟩ := segmented_merge hd.sound.conds hd.sound.old hd.sound.new hnd'
  have hb : BetweenRounds E C
      { s with
        links := maybeMergeConditions E s.wtr s.links sc.waiters.getLast? sc.newWaiters.head? }
      { sc with waiters := sc.waiters ++ sc.newWaiters, newWaiters := [], p := none } taken := by
    refine ⟨⟨by simpa using hnd, hd.sound.conds, hseg, .nil, ?_⟩, hd.chosen, fun ht y hy => ?_⟩
    · refine Segmented.keep hd.sound.queue hout (fun x hx hmem => ?_) fun _ _ => rfl
      exact (List.nodup_append.mp hnd).2.2 x (List.mem_append_right _ hmem) x hx rfl
    · have hy : y ∈ s.waiters := hy
      rw [hd.untested ht] at hy
      cases hy
  exact hb.next hspin

/-! ### The inner loop -/

/-- A step that changes only the word and where the thread is. -/
structure OnlyMoves (s s' : State T σ) : Prop where
  wtr : s'.wtr = s.wtr
  links : s'.links = s.links
  prot : s'.prot = s.prot
  waiters : s'.waiters = s.waiters

theorem OnlyMoves.setPc (p : Pc T) : OnlyMoves s (s.setPc t p) := ⟨rfl, rfl, rfl, rfl⟩

omit [DecidableEq T] in
theorem OnlyMoves.sound (h : OnlyMoves s s') (hs : Sound E C s wake old new) :
    Sound E C s' wake old new := by
  refine ⟨?_, ?_, ?_, ?_, ?_⟩
  · rw [h.waiters]
    exact hs.nodup
  · rw [h.wtr]
    exact hs.conds
  all_goals rw [h.links, h.wtr]
  · exact hs.old
  · exact hs.new
  · rw [h.waiters]
    exact hs.queue

theorem OnlyMoves.chosen {D left : List T} (h : OnlyMoves s s') (hc : sc.Chosen E s D left) :
    sc.Chosen E s' D left :=
  hc.congr (fun x _ => by simp only [conditionTrue, h.wtr, h.prot]) fun x _ => by rw [h.wtr]

theorem OnlyMoves.inRound (h : OnlyMoves s s') (hr : InRound E C s sc taken done rest) :
    InRound E C s' sc taken done rest := by
  obtain ⟨D, hD, hc⟩ := hr.chosen
  refine ⟨h.sound hr.sound, hr.split, hr.head, ⟨D, hD, h.chosen hc⟩, ?_⟩
  rw [h.waiters, h.wtr]
  exact hr.untested

theorem OnlyMoves.roundDone (h : OnlyMoves s s') (hd : RoundDone E C s sc taken) :
    RoundDone E C s' sc taken :=
  ⟨h.sound hd.sound, h.chosen hd.chosen, by rw [h.waiters]; exact hd.untested⟩

/-- The waiters of a scan are those that it has picked up. -/
theorem InRound.notMem (hr : InRound E C s sc taken done rest) {D : List T}
    (hc : sc.Chosen E s D (sc.waiters ++ done)) :
    ∀ x ∈ rest, x ∉ D := by
  have hnd := (List.nodup_append.mp hr.sound.nodup).1
  rw [hr.split] at hnd
  intro x hx hxD
  have hdisj : ∀ y ∈ sc.wake ++ (sc.waiters ++ done), y ≠ x := by
    have : (sc.wake ++ (sc.waiters ++ done) ++ rest).Nodup := by
      simpa [List.append_assoc] using hnd
    exact fun y hy => (List.nodup_append.mp this).2.2 y hy x hx
  by_cases hw : x ∈ sc.wake
  · exact hdisj x (List.mem_append_left _ hw) rfl
  · refine hdisj x (List.mem_append_right _ ?_) rfl
    rw [hc.left_eq]
    exact List.mem_filter.mpr ⟨hxD, by simpa using hw⟩

/-- The end of the inner loop. -/
theorem InRound.ends (hr : InRound E C s sc taken done rest)
    (hwt : sc.p ≠ none → sc.wakeType = some .writer) :
    RoundDone E C s { sc with setAllFalse := sc.setAllFalse && sc.p.isNone } taken := by
  obtain ⟨D, hD, hc⟩ := hr.chosen
  have hdisj := hr.notMem hc
  refine ⟨hr.sound, ?_, fun ht => (hr.untested ht).1⟩
  have hnew : sc.waiters ++ sc.newWaiters = sc.waiters ++ done ++ rest := by
    rw [hr.split, List.append_assoc]
  change Mu.Chosen _ _ _ _ (sc.waiters ++ sc.newWaiters) sc.wakeType _
    (sc.setAllFalse && sc.p.isNone)
  rw [hnew, hD]
  cases hp : sc.p with
  | none =>
      have hnil : rest = [] := List.head?_eq_none_iff.mp (hr.head.trans hp)
      subst hnil
      rw [Scan.Chosen] at hc
      simpa using hc
  | some x =>
      have hw : sc.wakeType = some .writer := hwt (by simp [hp])
      rw [Scan.Chosen, hw] at hc
      rw [hw]
      exact hc.stop hdisj (by simp)

theorem InRound.rest_eq (hr : InRound E C s sc taken done rest) {x : T} (hx : sc.p = some x) :
    ∃ rest', rest = x :: rest' := by
  obtain ⟨rest', hrest⟩ := List.head?_eq_some_iff.mp (hr.head.trans hx)
  exact ⟨rest', hrest⟩

theorem scanEnd_ok (hr : InRound E C s sc taken done rest)
    (hspin : (view s.word).spin = !sc.testing) (hwt : sc.p ≠ none → sc.wakeType = some .writer) :
    ScanOk E C t (taken ++ tookOver s (scanStep.scanEnd E s t m k sc sc.p))
      (scanStep.scanEnd E s t m k sc sc.p) := by
  have hdone := hr.ends hwt
  rw [scanStep.scanEnd]
  split
  · next ht =>
      rw [tookOver_of_eq (OnlyMoves.setPc _).waiters, List.append_nil]
      simp only [ScanOk, State.setPc_self]
      exact ⟨by rw [State.setPc, hspin, ht]; rfl, ht, (OnlyMoves.setPc _).roundDone hdone⟩
  · next ht =>
      have htook : tookOver s (scanAppend E s t m k
          { sc with setAllFalse := sc.setAllFalse && sc.p.isNone }) = s.waiters :=
        tookOver_scanNext rfl
      rw [htook]
      exact hdone.append (by rw [hspin]; simpa using ht)

/-- What one round of the inner loop does: it ends the loop, passes over some of the
waiters, or goes on to remove the first of them. -/
theorem InRound.step_cases (hr : InRound E C s sc taken done rest) (hsound : EqSound E C) :
    ((sc.p ≠ none → sc.wakeType = some .writer) ∧
      scanStep E s t m k sc = scanStep.scanEnd E s t m k sc sc.p) ∨
    (∃ sc' done' rest', InRound E C s sc' taken done' rest' ∧ rest'.length < rest.length ∧
      sc'.testing = sc.testing ∧ scanStep E s t m k sc = s.setPc t (.unlockSlow m k (.scan sc'))) ∨
    ∃ x rest', rest = x :: rest' ∧ conditionTrue E s x = true ∧ sc.wakeType ≠ some .writer ∧
      (sc.wakeType = none ∨ (s.wtr x).lType = .reader) ∧
      scanStep E s t m k sc = s.setPc t (.unlockSlow m k (.scanRemove sc x .load)) := by
  rw [scanStep]
  split
  · next hp => exact Or.inl ⟨by simp [hp], by rw [hp]⟩
  next x hp =>
  obtain ⟨rest, rfl⟩ := hr.rest_eq hp
  obtain ⟨D, hD, hc⟩ := hr.chosen
  have hdisj := hr.notMem hc
  have hndnew : sc.newWaiters.Nodup :=
    (List.nodup_append.mp (List.nodup_append.mp (List.nodup_append.mp hr.sound.nodup).1).2.1).2.1
  have hxd : x ∉ done := by
    rw [hr.split] at hndnew
    exact fun hm => (List.nodup_append.mp hndnew).2.2 x hm x (by simp) rfl
  split
  · next hwt => exact Or.inl ⟨fun _ => hwt, by rw [hp]⟩
  next hwt =>
  split
  · -- conditions are met only while they are tested
    next hpanic =>
      obtain ⟨-, hw | hnone | ⟨-, y, hy, -, hcond⟩⟩ := hr.untested hpanic.2
      · exact (hwt hw).elim
      · exact (hpanic.1 (hnone x (by simp))).elim
      · rw [hp] at hy
        cases hy
        exact (hpanic.1 hcond).elim
  next hpanic =>
  split
  · next hfalse =>
      have ht : sc.testing = true := by
        by_contra ht
        exact hpanic ⟨hfalse.1, by simpa using ht⟩
      have hnew := hr.sound.new
      rw [hr.split] at hnew hndnew
      obtain ⟨k₁, k₂, rfl, hskip, hsame⟩ := skipPastSameCondition_spec hnew hndnew
      rw [← hr.split] at hskip
      have hall : ∀ y ∈ x :: k₁, conditionTrue E s y = false := by
        intro y hy
        rcases List.mem_cons.mp hy with rfl | hy
        · exact hfalse.2
        · obtain ⟨c, d, hcx, hdy, heq⟩ := hsame y hy
          have hx := hfalse.2
          simp only [conditionTrue, hcx] at hx
          simp only [conditionTrue, hdy]
          rw [← heq hsound s.prot, hx]
      refine Or.inr (Or.inl ⟨{ sc with p := skipPastSameCondition s.links sc.newWaiters x },
        done ++ x :: k₁, k₂, ⟨hr.sound, ?_, hskip.symm, ⟨D ++ x :: k₁, ?_, ?_⟩, fun ht' => ?_⟩, ?_,
        rfl, rfl⟩)
      · rw [hr.split]
        simp
      · rw [hD]
        simp
      · rw [← List.append_assoc]
        exact Chosen.skip hc (fun y hy => hdisj y (by simp at hy ⊢; tauto)) hall
      · cases ht.symm.trans ht'
      · simp only [List.length_cons, List.length_append]
        omega
  next htrue =>
  have hel : conditionTrue E s x = true := by
    by_contra hf
    rw [Bool.not_eq_true] at hf
    refine htrue ⟨?_, hf⟩
    intro hnone
    simp [conditionTrue, hnone] at hf
  split
  · next hwake => exact Or.inr (Or.inr ⟨x, rest, rfl, hel, hwt, hwake, rfl⟩)
  · next hleft =>
      rw [not_or] at hleft
      have hm : (s.wtr x).lType = .writer := by
        cases hl : (s.wtr x).lType
        · exact (hleft.2 hl).elim
        · rfl
      have hwr : sc.wakeType = some .reader := by
        rcases hwt' : sc.wakeType with _ | _ | _
        · exact (hleft.1 hwt').elim
        · rfl
        · exact (hwt hwt').elim
      have hnext : dllNext sc.newWaiters x = rest.head? := by rw [hr.split, dllNext_append hxd]
      refine Or.inr (Or.inl ⟨{ sc with
          p := dllNext sc.newWaiters x
          setWriterWaiting := true
          setAllFalse := false },
        done ++ [x], rest, ⟨hr.sound, ?_, hnext.symm, ⟨D ++ [x], ?_, ?_⟩, fun ht => ?_⟩, by simp, rfl,
        rfl⟩)
      · rw [hr.split]
        simp
      · rw [hD]
        simp
      · rw [Scan.Chosen, hwr] at hc
        rw [Scan.Chosen, ← List.append_assoc]
        simp only [hwr]
        exact hc.passWriter (hdisj x (by simp)) hel hm
      · obtain ⟨hnil, hw | hnone | ⟨hn, -⟩⟩ := hr.untested ht
        · exact (hwt hw).elim
        · exact ⟨hnil, Or.inr (Or.inl fun y hy => hnone y (by simp [hy]))⟩
        · exact (hleft.1 hn).elim

theorem scanStep_ok (hr : InRound E C s sc taken done rest)
    (hspin : (view s.word).spin = !sc.testing) (hsound : EqSound E C) :
    ScanOk E C t (taken ++ tookOver s (scanStep E s t m k sc)) (scanStep E s t m k sc) := by
  rcases hr.step_cases (t := t) (m := m) (k := k) hsound with
    ⟨hwt, heq⟩ | ⟨sc', done', rest', hr', -, ht, heq⟩ | ⟨x, rest', rfl, hel, hwt, hwake, heq⟩
  · rw [heq]
    exact scanEnd_ok hr hspin hwt
  · rw [heq, tookOver_of_eq (OnlyMoves.setPc _).waiters, List.append_nil]
    simp only [ScanOk, State.setPc_self]
    exact ⟨by rw [ht]; exact hspin, done', rest', OnlyMoves.inRound (.setPc _) hr'⟩
  · rw [heq, tookOver_of_eq (OnlyMoves.setPc _).waiters, List.append_nil]
    simp only [ScanOk, State.setPc_self]
    exact ⟨hspin, ⟨done, rest', OnlyMoves.inRound (.setPc _) hr⟩, hel, hwt, hwake⟩

/-! ### Removing a waiter -/

/-- The locals after waiter `x` of mode `μ` has been put on the list of those to wake. -/
def Scan.woken (sc : Scan T) (x : T) (μ : Mode) : Scan T :=
  { sc with
    p := dllNext sc.newWaiters x
    newWaiters := sc.newWaiters.erase x
    wake := sc.wake ++ [x]
    wakeType := some μ }

theorem setWtr_removed (x y : T) :
    ((s.setWtr x Waiter.removed).wtr y).cond = (s.wtr y).cond ∧
      ((s.setWtr x Waiter.removed).wtr y).lType = (s.wtr y).lType := by
  by_cases hy : y = x
  · subst hy
    simp [State.setWtr, Waiter.removed]
  · simp [State.setWtr, hy]

theorem InRound.remove {x : T} (hr : InRound E C s sc taken done (x :: rest))
    (hel : conditionTrue E s x = true) (hwt : sc.wakeType ≠ some .writer)
    (hwake : sc.wakeType = none ∨ (s.wtr x).lType = .reader)
    (hwtr : ∀ y, (s'.wtr y).cond = (s.wtr y).cond ∧ (s'.wtr y).lType = (s.wtr y).lType)
    (hprot : s'.prot = s.prot) (hq : s'.waiters = s.waiters)
    (hlinks : s'.links = removeSameCondition E s.wtr s.links sc.newWaiters x) :
    InRound E C s' (sc.woken x (s.wtr x).lType) taken done rest := by
  obtain ⟨D, hD, hc⟩ := hr.chosen
  have hdisj := hr.notMem hc
  have hnd := hr.sound.nodup
  have hndall := List.nodup_append.mp (List.nodup_append.mp hnd).1
  have hndnew : sc.newWaiters.Nodup := (List.nodup_append.mp hndall.2.1).2.1
  have hxd : x ∉ done := by
    rw [hr.split] at hndnew
    exact fun hm => (List.nodup_append.mp hndnew).2.2 x hm x (by simp) rfl
  have hxn : x ∈ sc.newWaiters := by simp [hr.split]
  have herase : sc.newWaiters.erase x = done ++ rest := by
    rw [hr.split, List.erase_append_right _ hxd, List.erase_cons_head]
  obtain ⟨hseg, hout, -⟩ := segmented_remove hr.sound.conds hr.sound.new hndnew hxn
  refine ⟨⟨?_, fun y c hy => ?_, ?_, ?_, ?_⟩, herase, ?_, ⟨D ++ [x], by rw [hD]; simp, ?_⟩,
    fun ht => ?_⟩
  · have hperm : (sc.wake ++ [x] ++ (sc.waiters ++ (done ++ rest)) ++ s'.waiters).Perm
        (sc.wake ++ (sc.waiters ++ sc.newWaiters) ++ s.waiters) := by
      rw [hq, hr.split]
      refine List.Perm.append_right _ ?_
      rw [List.append_assoc]
      refine List.Perm.append_left _ ?_
      rw [List.singleton_append, ← List.append_assoc, ← List.append_assoc]
      exact List.perm_middle.symm
    change (sc.wake ++ [x] ++ (sc.waiters ++ sc.newWaiters.erase x) ++ s'.waiters).Nodup
    rw [herase]
    exact hperm.nodup_iff.mpr hnd
  · rw [(hwtr y).1] at hy
    exact hr.sound.conds y c hy
  · rw [hlinks]
    refine Segmented.keep hr.sound.old hout (fun y hy hmem => ?_) fun y _ => (hwtr y).1
    exact (List.nodup_append.mp hndall.2.1).2.2 y hy y hmem rfl
  · rw [hlinks]
    refine hseg.congr (fun _ _ => rfl) (fun _ _ => rfl) fun y _ z _ hyz => ?_
    exact hyz.congr (hwtr y).1 (hwtr z).1
  · rw [hlinks, hq]
    refine Segmented.keep hr.sound.queue hout (fun y hy hmem => ?_) fun y _ => (hwtr y).1
    refine (List.nodup_append.mp hnd).2.2 y ?_ y hy rfl
    simp [hmem]
  · change rest.head? = dllNext sc.newWaiters x
    rw [hr.split, dllNext_append hxd]
  · have hxD := hdisj x (by simp)
    have hch : Mu.Chosen (conditionTrue E s) (fun y => (s.wtr y).lType) (D ++ [x]) (sc.wake ++ [x])
        (sc.waiters ++ done) (some (s.wtr x).lType) sc.setWriterWaiting sc.setAllFalse := by
      rw [Scan.Chosen] at hc
      rcases hw : sc.wakeType with _ | _ | _
      · rw [hw] at hc
        exact hc.wakeFirst hxD hel
      · rw [hw] at hc
        have hty : (s.wtr x).lType = .reader := by
          rcases hwake with hn | hty
          · cases hw.symm.trans hn
          · exact hty
        rw [hty]
        exact hc.wakeReader hxD hel hty
      · exact (hwt hw).elim
    refine hch.congr (fun y _ => ?_) fun y _ => (hwtr y).2
    simp only [conditionTrue, (hwtr y).1, hprot]
  · obtain ⟨hnil, hcase⟩ := hr.untested ht
    refine ⟨hq.trans hnil, ?_⟩
    rcases hcase with hw | hnone | ⟨-, y, hy, hty, -⟩
    · exact (hwt hw).elim
    · exact Or.inr (Or.inl fun y hy => by rw [(hwtr y).1, hnone y (by simp [hy])])
    · have hxy : x = y := by simpa [hy] using hr.head
      subst hxy
      exact Or.inl (congrArg some hty)

theorem InRound.removed_ok {x : T} (hr : InRound E C s sc taken done (x :: rest))
    (hspin : (view s.word).spin = !sc.testing) (hel : conditionTrue E s x = true)
    (hwt : sc.wakeType ≠ some .writer) (hwake : sc.wakeType = none ∨ (s.wtr x).lType = .reader)
    (hpc : s'.pc t = .unlockSlow m k (.scan (sc.woken x (s.wtr x).lType)))
    (hword : s'.word = s.word)
    (hwtr : ∀ y, (s'.wtr y).cond = (s.wtr y).cond ∧ (s'.wtr y).lType = (s.wtr y).lType)
    (hprot : s'.prot = s.prot) (hq : s'.waiters = s.waiters)
    (hlinks : s'.links = removeSameCondition E s.wtr s.links sc.newWaiters x) :
    ScanOk E C t (taken ++ tookOver s s') s' := by
  rw [tookOver_of_eq hq, List.append_nil, ScanOk, hpc, hword]
  exact ⟨hspin, done, rest, hr.remove hel hwt hwake hwtr hprot hq hlinks⟩

/-! ### Every step -/

theorem Scanning.step_ok {p : UnlockSlowPc T} (hsound : EqSound E C) (hok : ScanOk E C t taken s)
    (hpc : s.pc t = .unlockSlow m k p) (hp : p.scanning = true) :
    ScanOk E C t (taken ++ tookOver s (muUnlockSlow E s t m k p)) (muUnlockSlow E s t m k p) := by
  rw [ScanOk, hpc] at hok
  cases p with
  | scanRelease sc lc =>
      obtain ⟨hspin, ht, done, rest, hr⟩ := hok
      cases lc with
      | load =>
          rw [muUnlockSlow, tookOver_of_eq (OnlyMoves.setPc _).waiters, List.append_nil]
          simp only [ScanOk, State.setPc_self]
          exact ⟨hspin, ht, done, rest, OnlyMoves.inRound (.setPc _) hr⟩
      | cas w =>
          rw [muUnlockSlow]
          split_ifs with hw
          · have hm : OnlyMoves s ((s.setWord (releaseSpinlockWord w)).setPc t
                (.unlockSlow m k (.scan sc))) := ⟨rfl, rfl, rfl, rfl⟩
            rw [tookOver_of_eq hm.waiters, List.append_nil]
            simp only [ScanOk, State.setPc_self]
            refine ⟨?_, done, rest, hm.inRound hr⟩
            change (view (releaseSpinlockWord w)).spin = _
            rw [view_releaseSpinlockWord, ht]
            rfl
          · rw [tookOver_of_eq (OnlyMoves.setPc _).waiters, List.append_nil]
            simp only [ScanOk, State.setPc_self]
            exact ⟨hspin, ht, done, rest, OnlyMoves.inRound (.setPc _) hr⟩
  | scan sc =>
      obtain ⟨hspin, done, rest, hr⟩ := hok
      exact scanStep_ok hr hspin hsound
  | scanRemove sc x lc =>
      obtain ⟨hspin, ⟨done, rest, hr⟩, hel, hwt, hwake⟩ := hok
      cases lc with
      | load =>
          rw [muUnlockSlow, tookOver_of_eq (OnlyMoves.setPc _).waiters, List.append_nil]
          simp only [ScanOk, State.setPc_self]
          exact ⟨hspin, ⟨done, rest, OnlyMoves.inRound (.setPc _) hr⟩, hel, hwt, hwake⟩
      | cas w =>
          rw [muUnlockSlow]
          split_ifs with hw
          · exact hr.removed_ok hspin hel hwt hwake (State.setPc_self ..) rfl
              (setWtr_removed (s := s) x) rfl rfl rfl
          · rw [tookOver_of_eq (OnlyMoves.setPc _).waiters, List.append_nil]
            simp only [ScanOk, State.setPc_self]
            exact ⟨hspin, ⟨done, rest, OnlyMoves.inRound (.setPc _) hr⟩, hel, hwt, hwake⟩
  | scanSpin sc lc =>
      obtain ⟨hspin, ht, hd⟩ := hok
      cases lc with
      | load =>
          rw [muUnlockSlow]
          split_ifs
          all_goals
            rw [tookOver_of_eq (OnlyMoves.setPc _).waiters, List.append_nil]
            simp only [ScanOk, State.setPc_self]
            exact ⟨hspin, ht, OnlyMoves.roundDone (.setPc _) hd⟩
      | cas w =>
          rw [muUnlockSlow]
          split_ifs with hw
          · have hm : OnlyMoves s (s.setWord (spinWord muSpinlock 0#32 w)) := ⟨rfl, rfl, rfl, rfl⟩
            have htook : tookOver s (scanAppend E (s.setWord (spinWord muSpinlock 0#32 w)) t m k sc) =
                s.waiters := tookOver_scanNext rfl
            rw [htook]
            refine (hm.roundDone hd).append ?_
            change (view (spinWord muSpinlock 0#32 w)).spin = true
            rw [view_spinWord]
            rfl
          · rw [tookOver_of_eq (OnlyMoves.setPc _).waiters, List.append_nil]
            simp only [ScanOk, State.setPc_self]
            exact ⟨hspin, ht, OnlyMoves.roundDone (.setPc _) hd⟩
  | _ => cases hp

/-- The start of the scan. -/
theorem Starts.ok (h : Starts E C t m k s) :
    ScanOk E C t s.waiters (muUnlockSlow E s t m k (.grab s.word)) := by
  rw [muUnlockSlow, if_pos rfl]
  generalize hw : grabWord m (decide (s.word &&& muCondition ≠ 0#32)) s.word = w
  have hb : BetweenRounds E C (s.setWord w)
      { testing := decide (s.word &&& muCondition ≠ 0#32)
        late := decide (s.word &&& muCondition ≠ 0#32), waiters := [], newWaiters := [], p := none,
        wake := [], wakeType := none, setWriterWaiting := false, setAllFalse := true } [] := by
    refine ⟨⟨?_, h.conds, .nil, .nil, h.rings⟩, .empty, fun ht y hy => ?_⟩
    · simpa [State.setWord] using h.nodup
    · by_contra hc
      simp only [decide_eq_false_iff_not, not_not] at ht
      exact h.condition y hy hc ht
  have hspin : (view (s.setWord w).word).spin = true := by
    change (view w).spin = true
    rw [← hw, grabWord, view_or _ low_muDesigWaker, view_or _ low_muSpinlock, view_muSpinlock]
    simp [View.or, View.zero]
  exact hb.next hspin

/-! ### Meanwhile -/

omit [DecidableEq T] in
theorem Meanwhile.sound (hm : Meanwhile E C t s s') {wake old new : List T}
    (hpc : (s.pc t).taken = wake ++ (old ++ new)) (hpriv : (s.pc t).priv = old ++ new)
    (hs : Sound E C s wake old new) : Sound E C s' wake old new := by
  have hmem : ∀ x ∈ old ++ new, x ∈ (s.pc t).taken := by
    intro x hx
    rw [hpc]
    exact List.mem_append_right _ hx
  have keep : ∀ l : List T, (∀ x ∈ l, x ∈ old ++ new) →
      Segmented s.links (SameTruth E C s.wtr) l → Segmented s'.links (SameTruth E C s'.wtr) l := by
    intro l hl hseg
    refine hseg.congr (fun x hx => ?_) (fun x hx => ?_) fun x hx y hy hxy => ?_
    · exact (hm.links x (hpriv ▸ hl x hx)).1
    · exact (hm.links x (hpriv ▸ hl x hx)).2
    · exact hxy.congr (hm.wtr x (hmem x (hl x hx))).1 (hm.wtr y (hmem y (hl y hy))).1
  refine ⟨?_, hm.conds, keep old ?_ hs.old, keep new ?_ hs.new, hm.rings⟩
  · rw [← hpc]
    exact hm.nodup
  · exact fun x hx => List.mem_append_left _ hx
  · exact fun x hx => List.mem_append_right _ hx

/-- The choice so far does not depend on what the others do. -/
theorem Meanwhile.chosen (hm : Meanwhile E C t s s') {D left : List T} {wt : Option Mode}
    {ww af : Bool}
    (hc : Chosen (conditionTrue E s) (fun x => (s.wtr x).lType) D wake left wt ww af)
    (hmem : ∀ x ∈ wake ++ left, (s'.wtr x).cond = (s.wtr x).cond ∧
      (s'.wtr x).lType = (s.wtr x).lType) :
    Chosen (conditionTrue E s') (fun x => (s'.wtr x).lType) D wake left wt ww af := by
  have hD : ∀ x ∈ D, x ∈ wake ++ left := by
    intro x hx
    by_cases hw : x ∈ wake
    · exact List.mem_append_left _ hw
    · refine List.mem_append_right _ ?_
      rw [hc.left_eq]
      exact List.mem_filter.mpr ⟨hx, by simpa using hw⟩
  refine hc.congr (fun x hx => ?_) fun x hx => (hmem x (hD x hx)).2
  simp only [conditionTrue, (hmem x (hD x hx)).1, hm.prot]

theorem Meanwhile.inRound (hm : Meanwhile E C t s s') (hsc : (s.pc t).scan? = some sc)
    (hwake : (s.pc t).wake = sc.wake) (hspin : sc.testing = false → (view s.word).spin = true)
    (hr : InRound E C s sc taken done rest) : InRound E C s' sc taken done rest := by
  have hpriv : (s.pc t).priv = sc.waiters ++ sc.newWaiters := Pc.priv_of_scan hsc
  have htaken : (s.pc t).taken = sc.wake ++ (sc.waiters ++ sc.newWaiters) := by
    rw [Pc.taken, hwake, hpriv]
  have hmem : ∀ x ∈ sc.wake ++ (sc.waiters ++ sc.newWaiters), (s'.wtr x).cond = (s.wtr x).cond ∧
      (s'.wtr x).lType = (s.wtr x).lType := fun x hx => hm.wtr x (htaken ▸ hx)
  obtain ⟨D, hD, hc⟩ := hr.chosen
  refine ⟨hm.sound htaken hpriv hr.sound, hr.split, hr.head, ⟨D, hD, hm.chosen hc ?_⟩, fun ht => ?_⟩
  · intro x hx
    apply hmem
    rw [hr.split]
    simp only [List.mem_append] at hx ⊢
    tauto
  · have hrest : ∀ x ∈ rest, (s'.wtr x).cond = (s.wtr x).cond ∧
        (s'.wtr x).lType = (s.wtr x).lType := by
      intro x hx
      apply hmem
      rw [hr.split]
      simp [hx]
    obtain ⟨hnil, hcase⟩ := hr.untested ht
    refine ⟨(hm.locked (hspin ht)).1.trans hnil, ?_⟩
    rcases hcase with hw | hnone | ⟨hn, x, hx, hty, hcond⟩
    · exact Or.inl hw
    · exact Or.inr (Or.inl fun y hy => by rw [(hrest y hy).1, hnone y hy])
    · have hxr := hrest x (List.mem_of_mem_head? (hr.head.trans hx))
      exact Or.inr (Or.inr ⟨hn, x, hx, by rw [hxr.2, hty], by rw [hxr.1, hcond]⟩)

theorem Meanwhile.ok (hm : Meanwhile E C t s s') (hok : ScanOk E C t taken s) :
    ScanOk E C t taken s' := by
  rw [ScanOk] at hok
  rw [ScanOk, hm.pc, hm.spin]
  split at hok
  · next m k sc lc hpc =>
      obtain ⟨hspin, ht, done, rest, hr⟩ := hok
      exact ⟨hspin, ht, done, rest, hm.inRound (by rw [hpc]; rfl) (by rw [hpc]; rfl)
        (fun _ => hspin) hr⟩
  · next m k sc hpc =>
      obtain ⟨hspin, done, rest, hr⟩ := hok
      exact ⟨hspin, done, rest, hm.inRound (by rw [hpc]; rfl) (by rw [hpc]; rfl)
        (fun ht => by rw [hspin, ht]; rfl) hr⟩
  · next m k sc x lc hpc =>
      obtain ⟨hspin, ⟨done, rest, hr⟩, hel, hwt, hwake⟩ := hok
      have hr' := hm.inRound (by rw [hpc]; rfl) (by rw [hpc]; rfl)
        (fun ht => by rw [hspin, ht]; rfl) hr
      have hx : (s'.wtr x).cond = (s.wtr x).cond ∧ (s'.wtr x).lType = (s.wtr x).lType := by
        apply hm.wtr
        have hpriv : (Pc.unlockSlow m k (.scanRemove sc x lc)).priv = sc.waiters ++ sc.newWaiters :=
          Pc.priv_of_scan rfl
        rw [hpc, Pc.taken, hpriv, hr.split]
        simp
      refine ⟨hspin, ⟨done, rest, hr'⟩, ?_, hwt, by rw [hx.2]; exact hwake⟩
      rw [← hel]
      simp only [conditionTrue, hx.1, hm.prot]
  · next m k sc lc hpc =>
      obtain ⟨hspin, ht, hd⟩ := hok
      have hpriv : (s.pc t).priv = sc.waiters ++ sc.newWaiters := Pc.priv_of_scan (by rw [hpc]; rfl)
      have htaken : (s.pc t).taken = sc.wake ++ (sc.waiters ++ sc.newWaiters) := by
        rw [Pc.taken, hpriv, hpc]
        rfl
      refine ⟨hspin, ht, hm.sound htaken hpriv hd.sound, hm.chosen hd.chosen fun x hx => ?_, ?_⟩
      · exact hm.wtr x (htaken ▸ hx)
      · intro ht'
        cases ht.symm.trans ht'
  · next m k r lc hpc =>
      obtain ⟨hspin, ⟨wt, hc⟩, hnone⟩ := hok
      obtain ⟨hq, hwtr⟩ := hm.locked hspin
      refine ⟨hspin, ⟨wt, ?_⟩, by rw [hq, hnone]⟩
      rw [hq]
      refine hm.chosen hc fun x hx => ?_
      rcases List.mem_append.mp hx with hx | hx
      · apply hm.wtr
        rw [hpc]
        exact List.mem_append_left _ hx
      · exact hwtr x hx
  · exact hok.elim

theorem Scanning.ok (hsound : EqSound E C) (h : Scanning E C t m k taken s) :
    ScanOk E C t taken s := by
  induction h with
  | start h => exact h.ok
  | own _ hpc hp ih => exact Scanning.step_ok hsound ih hpc hp
  | other _ hm ih => exact hm.ok ih

/-! ## The scan ends -/

/-- Thread `t` takes one step of its scan. -/
def ownStep (E : Env σ) (t : T) (s : State T σ) : State T σ :=
  match s.pc t with
  | .unlockSlow m k p => if p.scanning then muUnlockSlow E s t m k p else s
  | _ => s

/-- Thread `t` comes to the end of its scan, if the others leave it alone. -/
def EndsScan (E : Env σ) (t : T) (s : State T σ) : Prop :=
  ∃ n m k r lc, ((ownStep E t)^[n] s).pc t = .unlockSlow m k (.final r lc)

theorem EndsScan.of_step {p : UnlockSlowPc T} (hpc : s.pc t = .unlockSlow m k p)
    (hp : p.scanning = true) (h : EndsScan E t (muUnlockSlow E s t m k p)) : EndsScan E t s := by
  obtain ⟨n, m', k', r, lc, hn⟩ := h
  refine ⟨n + 1, m', k', r, lc, ?_⟩
  have hstep : ownStep E t s = muUnlockSlow E s t m k p := by
    rw [ownStep, hpc]
    simp [hp]
  rw [Function.iterate_succ_apply, hstep, hn]

theorem EndsScan.of_final {r : Release T} {lc : LoadCas}
    (hpc : s.pc t = .unlockSlow m k (.final r lc)) : EndsScan E t s :=
  ⟨0, m, k, r, lc, hpc⟩

/-- The head of the outer loop leaves no queue behind, except at the end. -/
theorem scanNext_final_or_nil : (∃ r, (scanNext s t m k sc).pc t = .unlockSlow m k (.final r .load)) ∨
    (scanNext s t m k sc).waiters = [] := by
  cases hw : s.waiters with
  | nil =>
      rw [scanNext_nil hw]
      exact Or.inl ⟨_, State.setPc_self ..⟩
  | cons x l =>
      obtain ⟨b, -, -, heq⟩ := scanNext_cons t m k sc hw
      rw [heq]
      exact Or.inr rfl

/-- In `s'` the scan has removed `x` from its new waiters in `s`. -/
structure Removed (E : Env σ) (t : T) (m : Mode) (k : UnlockCont) (sc : Scan T) (x : T)
    (s s' : State T σ) : Prop where
  pc : s'.pc t = .unlockSlow m k (.scan (sc.woken x (s.wtr x).lType))
  word : s'.word = s.word
  wtr : ∀ y, (s'.wtr y).cond = (s.wtr y).cond ∧ (s'.wtr y).lType = (s.wtr y).lType
  prot : s'.prot = s.prot
  waiters : s'.waiters = s.waiters
  links : s'.links = removeSameCondition E s.wtr s.links sc.newWaiters x

theorem endsScan_of_removed {x : T} {lc : LoadCas} (hgo : ∀ s', Removed E t m k sc x s s' →
    EndsScan E t s') (hpc : s.pc t = .unlockSlow m k (.scanRemove sc x lc)) : EndsScan E t s := by
  have hcas : ∀ {s : State T σ}, (∀ s', Removed E t m k sc x s s' → EndsScan E t s') →
      s.pc t = .unlockSlow m k (.scanRemove sc x (.cas (s.wtr x).removeCount)) →
      EndsScan E t s := by
    intro s hgo hpc
    refine EndsScan.of_step hpc rfl ?_
    rw [muUnlockSlow, if_pos rfl]
    exact hgo _ ⟨State.setPc_self .., rfl, setWtr_removed (s := s) x, rfl, rfl, rfl⟩
  have hload : ∀ {s : State T σ}, (∀ s', Removed E t m k sc x s s' → EndsScan E t s') →
      s.pc t = .unlockSlow m k (.scanRemove sc x .load) → EndsScan E t s := by
    intro s hgo hpc
    refine EndsScan.of_step hpc rfl (hcas (fun s' h => hgo s' ?_) (State.setPc_self ..))
    exact ⟨h.pc, h.word, h.wtr, h.prot, h.waiters, h.links⟩
  cases lc with
  | load => exact hload hgo hpc
  | cas w =>
      by_cases hw : (s.wtr x).removeCount = w
      · exact hcas hgo (by rw [hw]; exact hpc)
      · -- the count has changed since it was loaded
        refine EndsScan.of_step hpc rfl ?_
        rw [muUnlockSlow, if_neg hw]
        refine hload (fun s' h => hgo s' ?_) (State.setPc_self ..)
        exact ⟨h.pc, h.word, h.wtr, h.prot, h.waiters, h.links⟩

/-- From here the scan comes to an end, once it retakes the spinlock. -/
def SpinsEnd (E : Env σ) (C : WaitCondition → Prop) (t : T) (W : List T) : Prop :=
  ∀ (s : State T σ) sc m k lc taken, s.pc t = .unlockSlow m k (.scanSpin sc lc) →
    s.waiters = W → (view s.word).spin = false → RoundDone E C s sc taken → EndsScan E t s

/-- The inner loop ends, by induction on the waiters that are still to come. -/
theorem InRound.endsScan (hsound : EqSound E C) (hspins : SpinsEnd E C t s.waiters)
    (hr : InRound E C s sc taken done rest) (hspin : (view s.word).spin = !sc.testing)
    (hpc : s.pc t = .unlockSlow m k (.scan sc)) : EndsScan E t s := by
  induction hn : rest.length using Nat.strong_induction_on generalizing s sc done rest with
  | _ n ih =>
      refine EndsScan.of_step hpc rfl ?_
      change EndsScan E t (scanStep E s t m k sc)
      rcases hr.step_cases (t := t) (m := m) (k := k) hsound with
        ⟨hwt, heq⟩ | ⟨sc', done', rest', hr', hlt, ht, heq⟩ | ⟨x, rest', rfl, hel, hwt, hwake, heq⟩
      · rw [heq, scanStep.scanEnd]
        split
        · next ht =>
            refine hspins _ _ m k .load taken (State.setPc_self ..) rfl ?_
              ((OnlyMoves.setPc _).roundDone (hr.ends hwt))
            change (view s.word).spin = false
            rw [hspin, ht]
            rfl
        · next ht =>
            have hnil : s.waiters = [] := (hr.untested (by simpa using ht)).1
            rw [scanAppend, scanNext_nil (by exact hnil)]
            exact EndsScan.of_final (State.setPc_self ..)
      · rw [heq]
        exact ih rest'.length (by omega) hspins ((OnlyMoves.setPc _).inRound hr')
          (by rw [ht]; exact hspin) (State.setPc_self ..) rfl
      · rw [heq]
        refine endsScan_of_removed (fun s' h => ?_) (State.setPc_self ..)
        have hr' : InRound E C s' (sc.woken x (s.wtr x).lType) taken done rest' :=
          hr.remove hel hwt hwake h.wtr h.prot h.waiters h.links
        refine ih rest'.length (by simp at hn; omega) ?_ hr' ?_ h.pc rfl
        · rw [h.waiters]
          exact hspins
        · rw [h.word]
          exact hspin

/-- A scan that has found all its waiters comes to an end. -/
theorem ScanOk.endsScan (hsound : EqSound E C) (hspins : SpinsEnd E C t s.waiters)
    (hok : ScanOk E C t taken s) : EndsScan E t s := by
  rw [ScanOk] at hok
  split at hok
  · next m k sc lc hpc =>
      obtain ⟨hspin, ht, done, rest, hr⟩ := hok
      have hcas : ∀ {s : State T σ}, SpinsEnd E C t s.waiters → InRound E C s sc taken done rest →
          s.pc t = .unlockSlow m k (.scanRelease sc (.cas s.word)) → EndsScan E t s := by
        intro s hspins hr hpc
        refine EndsScan.of_step hpc rfl ?_
        rw [muUnlockSlow, if_pos rfl]
        have hm : OnlyMoves s ((s.setWord (releaseSpinlockWord s.word)).setPc t
          (.unlockSlow m k (.scan sc))) := ⟨rfl, rfl, rfl, rfl⟩
        refine (hm.inRound hr).endsScan hsound hspins ?_ (State.setPc_self ..)
        change (view (releaseSpinlockWord s.word)).spin = _
        rw [view_releaseSpinlockWord, ht]
        rfl
      have hload : ∀ {s : State T σ}, SpinsEnd E C t s.waiters → InRound E C s sc taken done rest →
          s.pc t = .unlockSlow m k (.scanRelease sc .load) → EndsScan E t s := by
        intro s hspins hr hpc
        refine EndsScan.of_step hpc rfl ?_
        exact hcas hspins ((OnlyMoves.setPc _).inRound hr) (State.setPc_self ..)
      cases lc with
      | load => exact hload hspins hr hpc
      | cas w =>
          by_cases hw : s.word = w
          · exact hcas hspins hr (by rw [hw]; exact hpc)
          · refine EndsScan.of_step hpc rfl ?_
            rw [muUnlockSlow, if_neg hw]
            exact hload hspins ((OnlyMoves.setPc _).inRound hr) (State.setPc_self ..)
  · next m k sc hpc =>
      obtain ⟨hspin, done, rest, hr⟩ := hok
      exact hr.endsScan hsound hspins hspin hpc
  · next m k sc x lc hpc =>
      obtain ⟨hspin, ⟨done, rest, hr⟩, hel, hwt, hwake⟩ := hok
      refine endsScan_of_removed (fun s' h => ?_) hpc
      have hr' : InRound E C s' (sc.woken x (s.wtr x).lType) taken done rest :=
        hr.remove hel hwt hwake h.wtr h.prot h.waiters h.links
      refine hr'.endsScan hsound ?_ ?_ h.pc
      · rw [h.waiters]
        exact hspins
      · rw [h.word]
        exact hspin
  · next m k sc lc hpc =>
      obtain ⟨hspin, -, hd⟩ := hok
      exact hspins s sc m k lc taken hpc rfl hspin hd
  · next m k r lc hpc => exact EndsScan.of_final hpc
  · exact hok.elim

theorem endsScan_of_append {lc : LoadCas} (hgo : ∀ s', OnlyMoves s s' → (view s'.word).spin = true →
    EndsScan E t (scanAppend E s' t m k sc)) (hspin : (view s.word).spin = false)
    (hpc : s.pc t = .unlockSlow m k (.scanSpin sc lc)) : EndsScan E t s := by
  have hcas : ∀ {s : State T σ}, (∀ s', OnlyMoves s s' → (view s'.word).spin = true →
      EndsScan E t (scanAppend E s' t m k sc)) →
      s.pc t = .unlockSlow m k (.scanSpin sc (.cas s.word)) → EndsScan E t s := by
    intro s hgo hpc
    refine EndsScan.of_step hpc rfl ?_
    rw [muUnlockSlow, if_pos rfl]
    refine hgo _ ⟨rfl, rfl, rfl, rfl⟩ ?_
    change (view (spinWord muSpinlock 0#32 s.word)).spin = true
    rw [view_spinWord]
    rfl
  have hload : ∀ {s : State T σ}, (∀ s', OnlyMoves s s' → (view s'.word).spin = true →
      EndsScan E t (scanAppend E s' t m k sc)) → (view s.word).spin = false →
      s.pc t = .unlockSlow m k (.scanSpin sc .load) → EndsScan E t s := by
    intro s hgo hspin hpc
    refine EndsScan.of_step hpc rfl ?_
    rw [muUnlockSlow, if_pos ((and_muSpinlock s.word).mpr hspin)]
    exact hcas (fun s' h => hgo s' ⟨h.wtr, h.links, h.prot, h.waiters⟩) (State.setPc_self ..)
  cases lc with
  | load => exact hload hgo hspin hpc
  | cas w =>
      by_cases hw : s.word = w
      · exact hcas hgo (by rw [hw]; exact hpc)
      · refine EndsScan.of_step hpc rfl ?_
        rw [muUnlockSlow, if_neg hw]
        exact hload (fun s' h => hgo s' ⟨h.wtr, h.links, h.prot, h.waiters⟩) hspin
          (State.setPc_self ..)

theorem spinsEnd_nil : SpinsEnd (σ := σ) E C t [] := by
  intro s sc m k lc taken hpc hnil hspin _
  refine endsScan_of_append (fun s' hm _ => ?_) hspin hpc
  rw [scanAppend, scanNext_nil (by exact hm.waiters.trans hnil)]
  exact EndsScan.of_final (State.setPc_self ..)

/-- After the waiters that are there now, the scan finds no others. -/
theorem spinsEnd (hsound : EqSound E C) (W : List T) : SpinsEnd (σ := σ) E C t W := by
  intro s sc m k lc taken hpc _ hspin hd
  refine endsScan_of_append (fun s' hm hspin' => ?_) hspin hpc
  have hok := (hm.roundDone hd).append (t := t) (m := m) (k := k) hspin'
  have hcases : (∃ r, (scanAppend E s' t m k sc).pc t = .unlockSlow m k (.final r .load)) ∨
      (scanAppend E s' t m k sc).waiters = [] := scanNext_final_or_nil
  rcases hcases with ⟨r, hfinal⟩ | hnil
  · exact EndsScan.of_final hfinal
  · refine hok.endsScan hsound ?_
    rw [show (scanAppend E s' t m k sc).waiters = [] from hnil]
    exact spinsEnd_nil

end

/-! ## The specification -/

section

variable {E : Env σ} {C : WaitCondition → Prop} {s : State T σ} {t : T} {m : Mode} {k : UnlockCont}
  {taken : List T}

/-- The waiters that could acquire, in the order of the scan. -/
def eligible (E : Env σ) (s : State T σ) (l : List T) : List T := l.filter (conditionTrue E s)

theorem Chosen.writerWaiting_iff {el : T → Bool} {ty : T → Mode} {D wake left : List T}
    {wt : Option Mode} {ww af : Bool} (h : Chosen el ty D wake left wt ww af) :
    ww = true ↔ (∃ x ∈ wake, ty x = .reader) ∧ ∃ x ∈ D.filter el, ty x = .writer := by
  have hreader : wt = some .reader ↔ ∃ x ∈ wake, ty x = .reader := by
    rcases wt with _ | _ | _
    · simp [(h.nobody rfl).1]
    · obtain ⟨⟨x, hx, hty⟩, hwake⟩ := h.reader rfl
      refine ⟨fun _ => ⟨x, ?_, hty⟩, fun _ => rfl⟩
      rw [hwake]
      exact List.mem_filter.mpr ⟨List.mem_of_mem_head? hx, by simpa using hty⟩
    · obtain ⟨x, -, hty, hwake⟩ := h.writer rfl
      simp [hwake, hty]
  rw [h.writerWaiting, hreader]
  refine and_congr Iff.rfl (exists_congr fun x => ?_)
  rw [List.mem_filter, and_assoc]

omit [DecidableEq T] in
theorem setOnRelease_writerWaiting (r : Release T) :
    r.setOnRelease &&& muWriterWaiting ≠ 0#32 ↔ r.setWriterWaiting = true := by
  rw [Release.setOnRelease]
  cases r.setAllFalse <;> cases r.setWriterWaiting <;> decide

omit [DecidableEq T] in
theorem setOnRelease_allFalse (r : Release T) :
    r.setOnRelease &&& ~~~r.clearOnRelease &&& muAllFalse ≠ 0#32 →
      r.noneLeft = false ∧ r.setAllFalse = true := by
  rw [Release.setOnRelease, Release.clearOnRelease]
  cases r.setAllFalse <;> cases r.setWriterWaiting <;> cases r.noneLeft <;> cases r.wake.isEmpty <;>
    decide

omit [DecidableEq T] in
theorem clearOnRelease_bits (r : Release T) :
    (r.clearOnRelease &&& muDesigWaker ≠ 0#32 ↔ r.wake.isEmpty = true) ∧
      (r.clearOnRelease &&& muWaiting ≠ 0#32 ↔ r.noneLeft = true) ∧
      (r.clearOnRelease &&& muCondition ≠ 0#32 ↔ r.noneLeft = true) := by
  rw [Release.clearOnRelease]
  cases r.setAllFalse <;> cases r.noneLeft <;> cases r.wake.isEmpty <;> decide

/-- However the waiters arrive, the scan wakes nobody if no waiter can acquire,
the first that can if it is a writer, and else all readers that can; the others
stay in their order, and the bits to set and to clear follow.  It comes to its
end if no more waiters arrive. -/
theorem scan_computes (hsound : EqSound E C) (h : Scanning E C t m k taken s) :
    EndsScan E t s ∧ ∀ r lc, s.pc t = .unlockSlow m k (.final r lc) →
      (eligible E s taken = [] → r.wake = []) ∧
      (∀ x, (eligible E s taken).head? = some x → (s.wtr x).lType = .writer → r.wake = [x]) ∧
      (∀ x, (eligible E s taken).head? = some x → (s.wtr x).lType = .reader →
        r.wake = (eligible E s taken).filter fun y => (s.wtr y).lType = .reader) ∧
      s.waiters = taken.filter (fun x => x ∉ r.wake) ∧
      (r.setOnRelease &&& muWriterWaiting ≠ 0#32 ↔
        (∃ x ∈ r.wake, (s.wtr x).lType = .reader) ∧
          ∃ x ∈ eligible E s taken, (s.wtr x).lType = .writer) ∧
      (r.setOnRelease &&& ~~~r.clearOnRelease &&& muAllFalse ≠ 0#32 →
        s.waiters ≠ [] ∧ ∀ x ∈ s.waiters, conditionTrue E s x = false) ∧
      (r.clearOnRelease &&& muDesigWaker ≠ 0#32 ↔ r.wake = []) ∧
      (r.clearOnRelease &&& muWaiting ≠ 0#32 ↔ s.waiters = []) ∧
      (r.clearOnRelease &&& muCondition ≠ 0#32 ↔ s.waiters = []) := by
  have hok := h.ok hsound
  refine ⟨hok.endsScan hsound (spinsEnd hsound _), fun r lc hpc => ?_⟩
  rw [ScanOk, hpc] at hok
  obtain ⟨-, ⟨wt, hc⟩, hnone⟩ := hok
  obtain ⟨hdesig, hwaiting, hcond⟩ := clearOnRelease_bits r
  have hempty : r.noneLeft = true ↔ s.waiters = [] := by rw [hnone, List.isEmpty_iff]
  refine ⟨fun hnil => ?_, fun x hx hty => ?_, fun x hx hty => ?_, hc.left_eq, ?_, fun haf => ?_,
    by rw [hdesig, List.isEmpty_iff], hwaiting.trans hempty, hcond.trans hempty⟩
  · rcases wt with _ | _ | _
    · exact (hc.nobody rfl).1
    · rw [(hc.reader rfl).2, show taken.filter (conditionTrue E s) = [] from hnil]
      rfl
    · obtain ⟨y, hy, -⟩ := hc.writer rfl
      rw [show taken.filter (conditionTrue E s) = [] from hnil] at hy
      cases hy
  · rcases wt with _ | _ | _
    · rw [eligible, (hc.nobody rfl).2] at hx
      cases hx
    · obtain ⟨⟨y, hy, hty'⟩, -⟩ := hc.reader rfl
      obtain rfl : x = y := Option.some.inj (hx.symm.trans hy)
      cases hty.symm.trans hty'
    · obtain ⟨y, hy, -, hwake⟩ := hc.writer rfl
      obtain rfl : x = y := Option.some.inj (hx.symm.trans hy)
      exact hwake
  · rcases wt with _ | _ | _
    · rw [eligible, (hc.nobody rfl).2] at hx
      cases hx
    · exact (hc.reader rfl).2
    · obtain ⟨y, hy, hty', -⟩ := hc.writer rfl
      obtain rfl : x = y := Option.some.inj (hx.symm.trans hy)
      cases hty.symm.trans hty'
  · rw [setOnRelease_writerWaiting]
    exact hc.writerWaiting_iff
  · obtain ⟨hleft, hset⟩ := setOnRelease_allFalse r haf
    refine ⟨fun hnil => ?_, hc.allFalse hset⟩
    cases hleft.symm.trans (hempty.mpr hnil)

/-- A writer is about to scan a queue with a reader and a writer. -/
def scanStart : State (Fin 3) Bool :=
  { initial false with
    word := muWlock ||| muWaiting
    waiters := [1, 2]
    wtr := fun x => ⟨true, 0#32, 0, false, if x = 1 then .reader else .writer, none⟩
    pc := fun _ => .unlockSlow .writer .ret (.grab (muWlock ||| muWaiting)) }

theorem scanStart_starts : Starts flagEnv (fun _ => True) 0 .writer .ret scanStart := by
  refine ⟨rfl, by decide, ?_, fun _ _ _ => trivial, fun x _ hx => (hx rfl).elim⟩
  exact (Segmented.singleton (a := (1 : Fin 3)) ⟨rfl, rfl⟩).append (.singleton (a := 2) ⟨rfl, rfl⟩)

/-- `n` steps of a scan that no other thread interrupts, or fewer if it ends. -/
def scanSteps (E : Env σ) (t : T) (m : Mode) (k : UnlockCont) :
    ℕ → List T → State T σ → List T × State T σ
  | 0, taken, s => (taken, s)
  | n + 1, taken, s =>
    match s.pc t with
    | .unlockSlow m' k' p =>
      if m' = m ∧ k' = k ∧ p.scanning = true then
        scanSteps E t m k n (taken ++ tookOver s (muUnlockSlow E s t m k p))
          (muUnlockSlow E s t m k p)
      else (taken, s)
    | _ => (taken, s)

theorem Scanning.steps (n : ℕ) (h : Scanning E C t m k taken s) :
    Scanning E C t m k (scanSteps E t m k n taken s).1 (scanSteps E t m k n taken s).2 := by
  induction n generalizing taken s with
  | zero => exact h
  | succ n ih =>
    rw [scanSteps]
    split
    · split_ifs with hp
      · obtain ⟨rfl, rfl, hp⟩ := hp
        exact ih (h.own ‹_› hp)
      · exact h
    · exact h

/-- The reader is woken and the writer stays. -/
theorem scan_computes_scanStart :
    ∃ (s : State (Fin 3) Bool) (r : Release (Fin 3)) (lc : LoadCas),
      s.pc 0 = .unlockSlow .writer .ret (.final r lc) ∧ r.wake = [1] ∧ s.waiters = [2] := by
  have h := (Scanning.start scanStart_starts).steps 10
  generalize hn : scanSteps (T := Fin 3) (σ := Bool) _ _ _ _ _ _ _ = e at h
  have he : e.1 = [1, 2] ∧ (∀ x : Fin 3, (e.2.wtr x).lType = if x = 1 then .reader else .writer) ∧
      (∀ x : Fin 3, (e.2.wtr x).cond = none) ∧
      ∃ r lc, e.2.pc 0 = .unlockSlow .writer .ret (.final r lc) := by
    rw [← hn]
    exact ⟨rfl, by decide, by decide, _, _, rfl⟩
  obtain ⟨htaken, hty, hcond, r, lc, hpc⟩ := he
  obtain ⟨-, hmain⟩ := scan_computes (fun _ _ _ _ _ _ => rfl) h
  obtain ⟨-, -, hreader, hleft, -⟩ := hmain r lc hpc
  have hel : eligible flagEnv e.2 e.1 = [1, 2] := by
    rw [eligible, htaken]
    simp [conditionTrue, hcond]
  have hwake : r.wake = [1] := by
    rw [hreader 1 (by rw [hel]; rfl) (by rw [hty]; rfl), hel]
    simp [hty]
  refine ⟨e.2, r, lc, hpc, hwake, ?_⟩
  rw [hleft, htaken, hwake]
  decide

end

end Nsync.Mu
