import Nsync.Counter.Effect

/-!
# The invariant of a counter

Only the holder of `counter_mu` changes the value or the list of waiters.  Once
somebody has waited, an add that leaves zero is doomed to fail its `ASSERT`.
-/

namespace Nsync.Counter

open Nsync.Lib

variable {T : Type} [DecidableEq T] {s s' : State T} {t : T}

/-- Some add is about to fail an `ASSERT`. -/
def Doomed (s : State T) : Prop :=
  ∃ t d old, s.pc t = .addCheck d old ∧ assertsHold d (old + d) s.waited = false

/-- A wait has begun, and the value is 0 up to an add that is about to fail. -/
def Zeroed (s : State T) : Prop := s.waited = true ∧ (s.value = 0#32 ∨ Doomed s)

/-- The posts made for a record that an add has taken off the list: one, or none
yet. -/
def Posted (s : State T) (x : T) : Prop :=
  ((∃ u d old, s.pc u = .addPost d old x) ∧ s.posts x = 0) ∨
    ((∀ u d old, s.pc u ≠ .addPost d old x) ∧ s.posts x = 1)

structure Inv (s : State T) : Prop where
  owner : ∀ t, s.mu = some t ↔ (s.pc t).holds = true
  ok : ∀ t, (s.pc t).Ok s.value (s.waiting t)
  begun : ∀ t, (s.pc t).begun = true → s.waited = true
  mem : ∀ x, x ∈ s.waiters ↔ s.waiting x = true
  nodup : s.waiters.Nodup
  queued : ∀ x, s.waiting x = true → (s.pc x).queued = true ∧ s.posts x = 0
  taken : ∀ x, (s.pc x).queued = true → s.waiting x = false → Zeroed s ∧ Posted s x
  pend : ∀ u d old x, s.pc u = .addPost d old x → (s.pc x).queued = true ∧ s.waiting x = false
  empty : s.value = 0#32 → s.waiters = [] ∨ ∃ u, (s.pc u).clearing = true
  returned : s.zeroReturned = true → Zeroed s
  reported : s.zeroReported = true → Zeroed s

omit [DecidableEq T] in
theorem Pc.begun_of_queued {p : Pc T} (h : p.queued = true) : p.begun = true := by
  cases p <;> first | rfl | cases h | skip
  all_goals
    simp only [Pc.queued, Bool.and_eq_true] at h
    exact h.1

omit [DecidableEq T] in
theorem Pc.holds_of_clearing {p : Pc T} (h : p.clearing = true) : p.holds = true := by
  cases p <;> first | rfl | cases h

omit [DecidableEq T] in
theorem Inv.eq_of_holds {u : T} (h : Inv s) (ht : (s.pc t).holds = true)
    (hu : (s.pc u).holds = true) : u = t := by
  have h1 := (h.owner t).mpr ht
  have h2 := (h.owner u).mpr hu
  rw [h1] at h2
  exact (Option.some.inj h2).symm

/-- A step that does not change the value keeps a counter zeroed. -/
theorem Zeroed.frame {p : Pc T} (h : Zeroed s) (hpc : s'.pc = Function.update s.pc t p)
    (hv : s'.value = s.value) (hw : s.waited = true → s'.waited = true)
    (hd : ∀ d old, s.pc t = .addCheck d old → assertsHold d (old + d) s.waited = true) :
    Zeroed s' := by
  obtain ⟨hwaited, hz⟩ := h
  refine ⟨hw hwaited, hz.imp (fun h0 => by rw [hv, h0]) ?_⟩
  rintro ⟨u, d, old, hu, hfail⟩
  have hut : u ≠ t := by
    rintro rfl
    rw [hd d old hu] at hfail
    cases hfail
  exact ⟨u, d, old, by rw [hpc, Function.update_of_ne hut, hu], by rw [hw hwaited, ← hwaited, hfail]⟩

/-- Once zeroed, always zeroed. -/
theorem Zeroed.step (h : Zeroed s) (hi : Inv s) (he : Effect t s s') : Zeroed s' := by
  have hnot : ∀ {p : Pc T}, s.pc t = p → (∀ d old, p ≠ .addCheck d old) →
      ∀ d old, s.pc t = .addCheck d old → assertsHold d (old + d) s.waited = true :=
    fun hpc hp d old hc => (hp d old (hpc.symm.trans hc)).elim
  cases he with
  | post hs => rw [hs]; exact h
  | move p hm => exact h.frame hm.pc hm.value hm.waited hm.doomed
  | cas d old hpc hv hs =>
      obtain ⟨hwaited, hz⟩ := h
      subst hs
      rcases hz with h0 | ⟨u, d', old', hu, -⟩
      · have hd : d ≠ 0#32 := by
          have hok := hi.ok t
          rw [hpc] at hok
          exact hok.1
        refine ⟨hwaited, Or.inr ⟨t, d, old, Function.update_self .., ?_⟩⟩
        change assertsHold d (old + d) s.waited = false
        rw [hwaited, ← hv, h0]
        exact asserts_fail_from_zero hd
      · have hut := hi.eq_of_holds (t := t) (u := u) (by rw [hpc]; rfl) (by rw [hu]; rfl)
        subst hut
        rw [hpc] at hu
        cases hu
  | crash d old hpc ha hs => subst hs; exact h
  | wake d old x rest hpc hw hs => subst hs; exact h.frame rfl rfl id (hnot hpc nofun)
  | wakePost d old x hpc hs => rw [hs]; exact h.frame rfl rfl id (hnot hpc nofun)
  | init w hpc hs => subst hs; exact h.frame rfl rfl id (hnot hpc nofun)
  | link value w hpc hv hs => subst hs; exact h.frame rfl rfl id (hnot hpc nofun)
  | noLink value w hpc hv hs => subst hs; exact h.frame rfl rfl id (hnot hpc nofun)
  | remove value w hpc hs => subst hs; exact h.frame rfl rfl id (hnot hpc nofun)
  | skip value w hpc hw hs => subst hs; exact h.frame rfl rfl id (hnot hpc nofun)

theorem MuMove.owner {p : Pc T} (hm : MuMove s s' t p) (h : ∀ u, s.mu = some u ↔ (s.pc u).holds = true)
    (hpc : s'.pc = Function.update s.pc t p) (u : T) :
    s'.mu = some u ↔ (s'.pc u).holds = true := by
  have hself := h t
  by_cases hu : u = t
  · subst hu
    rw [hpc, Function.update_self]
    cases hm with
    | keep hm hp => rw [hm, hp]; exact hself
    | take hf hm hq hp => simp [hm, hp]
    | drop hm hq hp => simp [hm, hp]
  · rw [hpc, Function.update_of_ne hu, ← h u]
    cases hm with
    | keep hm hp => rw [hm]
    | take hf hm hq hp => simp [hm, hf, Ne.symm hu]
    | drop hm hq hp => simp [hm, hself.mpr hq, Ne.symm hu]

/-- The part of the invariant that is about mutex and program counters. -/
theorem Inv.control {p : Pc T} (h : Inv s) (hpc : s'.pc = Function.update s.pc t p)
    (hmu : MuMove s s' t p) (hok : p.Ok s'.value (s'.waiting t))
    (hframe : (s.pc t).holds = true ∨
      (s'.value = s.value ∧ ∀ u, u ≠ t → s'.waiting u = s.waiting u))
    (hbegun : p.begun = true → s'.waited = true) (hwaited : s.waited = true → s'.waited = true) :
    (∀ u, s'.mu = some u ↔ (s'.pc u).holds = true) ∧ (∀ u, (s'.pc u).Ok s'.value (s'.waiting u)) ∧
      ∀ u, (s'.pc u).begun = true → s'.waited = true := by
  refine ⟨hmu.owner h.owner hpc, fun u => ?_, fun u hu => ?_⟩
  · by_cases hut : u = t
    · subst hut
      rwa [hpc, Function.update_self]
    · rw [hpc, Function.update_of_ne hut]
      rcases hframe with hholds | ⟨hv, hw⟩
      · refine Pc.ok_of_not_holds ?_ _ _
        by_contra hn
        exact hut (h.eq_of_holds hholds (by simpa using hn))
      · rw [hv, hw u hut]
        exact h.ok u
  · by_cases hut : u = t
    · subst hut
      rw [hpc, Function.update_self] at hu
      exact hbegun hu
    · rw [hpc, Function.update_of_ne hut] at hu
      exact hwaited (h.begun u hu)

/-- Nothing changes about the posts that are due. -/
theorem Posted.frame {x : T} {p : Pc T} (h : Posted s x) (hpc : s'.pc = Function.update s.pc t p)
    (hpost : ∀ d old, p ≠ .addPost d old x ∧ s.pc t ≠ .addPost d old x)
    (hposts : s'.posts x = s.posts x) : Posted s' x := by
  rcases h with ⟨⟨u, d, old, hu⟩, h0⟩ | ⟨hno, h1⟩
  · have hut : u ≠ t := by
      rintro rfl
      exact (hpost d old).2 hu
    exact Or.inl ⟨⟨u, d, old, by rw [hpc, Function.update_of_ne hut, hu]⟩, by rw [hposts, h0]⟩
  · refine Or.inr ⟨fun u d old hu => ?_, by rw [hposts, h1]⟩
    by_cases hut : u = t
    · subst hut
      rw [hpc, Function.update_self] at hu
      exact (hpost d old).1 hu
    · rw [hpc, Function.update_of_ne hut] at hu
      exact hno u d old hu

namespace Inv

/-- A step that changes no record and keeps the thread's own record as queued as
it was. -/
theorem keepRecords {p : Pc T} (h : Inv s) (hc : (∀ u, s'.mu = some u ↔ (s'.pc u).holds = true) ∧
      (∀ u, (s'.pc u).Ok s'.value (s'.waiting u)) ∧ ∀ u, (s'.pc u).begun = true → s'.waited = true)
    (hpc : s'.pc = Function.update s.pc t p) (hz : Zeroed s → Zeroed s')
    (hw : s'.waiters = s.waiters) (hwt : s'.waiting = s.waiting) (hposts : s'.posts = s.posts)
    (hq : p.queued = (s.pc t).queued)
    (hpost : ∀ d old x, p ≠ .addPost d old x ∧ s.pc t ≠ .addPost d old x)
    (hempty : s'.value = 0#32 → s.waiters = [] ∨ ∃ u, (s'.pc u).clearing = true)
    (hret : s'.zeroReturned = true → Zeroed s') (hrep : s'.zeroReported = true → Zeroed s') :
    Inv s' := by
  have hqueued : ∀ x, (s'.pc x).queued = (s.pc x).queued := by
    intro x
    by_cases hx : x = t
    · subst hx
      rw [hpc, Function.update_self, hq]
    · rw [hpc, Function.update_of_ne hx]
  refine ⟨hc.1, hc.2.1, hc.2.2, ?_, by rw [hw]; exact h.nodup, ?_, ?_, ?_, by rwa [hw], hret, hrep⟩
  · rw [hw, hwt]
    exact h.mem
  · intro x hx
    rw [hwt] at hx
    rw [hqueued, hposts]
    exact h.queued x hx
  · intro x hx hx'
    rw [hqueued] at hx
    rw [hwt] at hx'
    obtain ⟨hzero, hp⟩ := h.taken x hx hx'
    exact ⟨hz hzero, hp.frame hpc (fun d old => hpost d old x) (by rw [hposts])⟩
  · intro u d old x hu
    rw [hqueued, hwt]
    by_cases hut : u = t
    · subst hut
      rw [hpc, Function.update_self] at hu
      exact ((hpost d old x).1 hu).elim
    · rw [hpc, Function.update_of_ne hut] at hu
      exact h.pend u d old x hu

theorem move {p : Pc T} (h : Inv s) (hm : Move s s' t p) (hz : Zeroed s → Zeroed s') : Inv s' := by
  have hframe : s'.value = s.value ∧ ∀ u, u ≠ t → s'.waiting u = s.waiting u :=
    ⟨hm.value, fun u _ => by rw [hm.waiting]⟩
  have hbegun : p.begun = true → s'.waited = true := fun hp =>
    (hm.begun hp).elim (fun hb => hm.waited (h.begun t hb)) id
  have hzero : s.value = 0#32 ∧ (s.pc t).begun = true → Zeroed s' :=
    fun hv => hz ⟨h.begun t hv.2, Or.inl hv.1⟩
  refine h.keepRecords (h.control hm.pc hm.mu (by rw [hm.value, hm.waiting]; exact hm.ok)
    (Or.inr hframe) hbegun hm.waited) hm.pc hz hm.waiters hm.waiting hm.posts hm.queued hm.post ?_
    (fun hr => (hm.returned hr).elim (fun hr => hz (h.returned hr)) hzero)
    (fun hr => (hm.reported hr).elim (fun hr => hz (h.reported hr)) hzero)
  intro hv
  rw [hm.value] at hv
  rcases h.empty hv with hw | ⟨u, hu⟩
  · exact Or.inl hw
  · by_cases hut : u = t
    · subst hut
      rcases hm.clearing hu with hp | hw | hv'
      · exact Or.inr ⟨u, by rw [hm.pc, Function.update_self, hp]⟩
      · exact Or.inl hw
      · exact (hv' hv).elim
    · exact Or.inr ⟨u, by rw [hm.pc, Function.update_of_ne hut, hu]⟩

omit [DecidableEq T] in
theorem waiting_false (h : Inv s) (hq : (s.pc t).queued = false) : s.waiting t = false := by
  by_contra hw
  rw [(h.queued t (by simpa using hw)).1] at hq
  cases hq

theorem setWaiting_self (h : Inv s) (hq : (s.pc t).queued = false) :
    Function.update s.waiting t false = s.waiting := by
  rw [← h.waiting_false hq, Function.update_eq_self]

omit [DecidableEq T] in
/-- While `t` holds the mutex, no add is going to post. -/
theorem not_addPost (h : Inv s) (ht : (s.pc t).holds = true)
    (hp : ∀ d old x, s.pc t ≠ .addPost d old x) (u : T) (d old : Word) (x : T) :
    s.pc u ≠ .addPost d old x := by
  intro hu
  have hut := h.eq_of_holds ht (u := u) (by rw [hu]; rfl)
  subst hut
  exact hp d old x hu

omit [DecidableEq T] in
theorem not_clearing (h : Inv s) (ht : (s.pc t).holds = true) (hp : (s.pc t).clearing = false)
    (u : T) : (s.pc u).clearing ≠ true := by
  intro hu
  have hut := h.eq_of_holds ht (Pc.holds_of_clearing hu)
  subst hut
  rw [hp] at hu
  cases hu

theorem cas {d old : Word} (h : Inv s) (hpc : s.pc t = .addCas d old)
    (hs : s' = { s.setPc t (.addCheck d old) with value := old + d })
    (hz : Zeroed s → Zeroed s') : Inv s' := by
  have hok := h.ok t
  rw [hpc] at hok
  subst hs
  refine h.keepRecords (t := t) (p := .addCheck d old) (h.control rfl (.keep rfl (by rw [hpc]; rfl))
    ⟨hok.1, rfl⟩ (Or.inl (by rw [hpc]; rfl)) nofun id) rfl hz rfl rfl rfl (by rw [hpc]; rfl) ?_ ?_
    (fun hr => hz (h.returned hr)) (fun hr => hz (h.reported hr))
  · exact fun _ _ _ => ⟨nofun, by rw [hpc]; nofun⟩
  · exact fun _ => Or.inr ⟨t, by simp [State.setPc, Pc.clearing]⟩

/-- The thread's own record was not waiting, and still is not. -/
theorem clear {p : Pc T} (h : Inv s) (hs : s' = (s.setWaiting t false).setPc t p)
    (hq : (s.pc t).queued = false) (hp : p.queued = false) (hholds : p.holds = (s.pc t).holds)
    (hb : (s.pc t).begun = true) (hok : p.Ok s.value false) (hc : (s.pc t).clearing = false)
    (hpost : ∀ d old x, p ≠ .addPost d old x) (hz : Zeroed s → Zeroed s') : Inv s' := by
  have hself := h.setWaiting_self hq
  have hnp : ∀ d old x, s.pc t ≠ .addPost d old x := by
    intro d old x hx
    rw [hx] at hc
    cases hc
  subst hs
  refine h.keepRecords (t := t) (p := p) (h.control rfl (.keep rfl hholds) ?_ (Or.inr ⟨rfl, ?_⟩)
    (fun _ => h.begun t hb) id) rfl hz rfl hself rfl (by rw [hp, hq])
    (fun d old x => ⟨hpost d old x, hnp d old x⟩) ?_ (fun hr => hz (h.returned hr))
    (fun hr => hz (h.reported hr))
  · change p.Ok s.value (Function.update s.waiting t false t)
    rwa [Function.update_self]
  · exact fun u _ => congrFun hself u
  · intro hv
    refine (h.empty hv).imp id ?_
    rintro ⟨u, hu⟩
    have hut : u ≠ t := by
      rintro rfl
      rw [hc] at hu
      cases hu
    exact ⟨u, by simpa [State.setPc, State.setWaiting, hut] using hu⟩

theorem link {value : Word} {w : Wait} (h : Inv s) (hpc : s.pc t = .enqLink value w)
    (hv : value ≠ 0#32)
    (hs : s' = { (s.setWaiting t true).setPc t (.enqUnlock { w with enqueued := true }) with
      waiters := s.waiters ++ [t]
      posts := Function.update s.posts t 0 })
    (hz : Zeroed s → Zeroed s') : Inv s' := by
  have hok : s.value = value := by simpa [hpc, Pc.Ok] using h.ok t
  have hholds : (s.pc t).holds = true := by rw [hpc]; rfl
  have hnp := h.not_addPost hholds (by rw [hpc]; nofun)
  have hoff := h.waiting_false (t := t) (by rw [hpc]; rfl)
  have hnotin : t ∉ s.waiters := fun hm => by simp [(h.mem t).mp hm] at hoff
  have hpcne : ∀ u, u ≠ t → s'.pc u = s.pc u := by
    intro u hu
    rw [hs]
    simp [State.setPc, State.setWaiting, hu]
  have hpct : s'.pc t = .enqUnlock { w with enqueued := true } := by simp [hs, State.setPc]
  have hwne : ∀ u, u ≠ t → s'.waiting u = s.waiting u ∧ s'.posts u = s.posts u := by
    intro u hu
    rw [hs]
    simp [State.setPc, State.setWaiting, hu]
  have hmoved : s'.pc = Function.update s.pc t (.enqUnlock { w with enqueued := true }) := by
    rw [hs]
    rfl
  have hc := h.control hmoved (.keep (by rw [hs]; rfl) (by rw [hpc]; rfl))
    (by rw [hs]; simpa [Pc.Ok, State.setPc, State.setWaiting, hok] using hv) (Or.inl hholds)
    (fun _ => by rw [hs]; exact h.begun t (by rw [hpc]; rfl)) (by rw [hs]; exact id)
  refine ⟨hc.1, hc.2.1, hc.2.2, fun x => ?_, ?_, fun x hx => ?_, fun x hx hx' => ?_,
    fun u d old x hu => ?_, fun h0 => ?_, fun hr => hz (h.returned (by rw [hs] at hr; exact hr)),
    fun hr => hz (h.reported (by rw [hs] at hr; exact hr))⟩
  · by_cases hx : x = t
    · subst hx
      simp [hs, State.setPc, State.setWaiting]
    · rw [(hwne x hx).1, ← h.mem x]
      simp [hs, hx]
  · rw [hs]
    exact List.nodup_append.mpr ⟨h.nodup, by simp, by
      intro a ha b hb
      rw [List.mem_singleton] at hb
      rintro rfl
      exact hnotin (hb ▸ ha)⟩
  · by_cases hxt : x = t
    · subst hxt
      rw [hpct]
      exact ⟨rfl, by simp [hs]⟩
    · rw [(hwne x hxt).1] at hx
      rw [hpcne x hxt, (hwne x hxt).2]
      exact h.queued x hx
  · by_cases hxt : x = t
    · subst hxt
      simp [hs, State.setPc, State.setWaiting] at hx'
    · rw [hpcne x hxt] at hx
      rw [(hwne x hxt).1] at hx'
      obtain ⟨hzero, hp⟩ := h.taken x hx hx'
      refine ⟨hz hzero, hp.frame (t := t) (p := .enqUnlock { w with enqueued := true })
        (by rw [hs]; rfl) (fun d old => ⟨nofun, hnp t d old x⟩) (hwne x hxt).2⟩
  · by_cases hut : u = t
    · subst hut
      rw [hpct] at hu
      cases hu
    · rw [hpcne u hut] at hu
      exact (hnp u d old x hu).elim
  · rw [hs] at h0
    exact (hv (hok.symm.trans h0)).elim

/-- The holder of the mutex takes its own record off the list, if it is on it. -/
theorem unlink {value : Word} {w : Wait} (h : Inv s) (hv : s.value = value)
    (hholds : (s.pc t).holds = true) (hb : (s.pc t).begun = true)
    (hs : s' = { (s.setWaiting t false).setPc t (.deqUnlock value w) with
      waiters := s.waiters.erase t })
    (hz : Zeroed s → Zeroed s') : Inv s' := by
  have hnp : ∀ u d old x, s.pc u ≠ .addPost d old x := by
    refine h.not_addPost hholds fun d old x hx => ?_
    rw [hx] at hb
    cases hb
  have hnc := h.not_clearing hholds (by cases hp : s.pc t <;> first | rfl | (rw [hp] at hb; cases hb))
  have hpcne : ∀ u, u ≠ t → s'.pc u = s.pc u := by
    intro u hu
    rw [hs]
    simp [State.setPc, State.setWaiting, hu]
  have hpct : s'.pc t = .deqUnlock value w := by simp [hs, State.setPc]
  have hwne : ∀ u, u ≠ t → s'.waiting u = s.waiting u := by
    intro u hu
    rw [hs]
    simp [State.setPc, State.setWaiting, hu]
  have hwt : s'.waiting t = false := by simp [hs, State.setPc, State.setWaiting]
  have hmoved : s'.pc = Function.update s.pc t (.deqUnlock value w) := by
    rw [hs]
    rfl
  have hc := h.control hmoved (.keep (by rw [hs]; rfl) (by rw [hholds]; rfl)) (by rw [hs]; exact hv)
    (Or.inl hholds) (fun _ => by rw [hs]; exact h.begun t hb) (by rw [hs]; exact id)
  refine ⟨hc.1, hc.2.1, hc.2.2, fun x => ?_, ?_, fun x hx => ?_, fun x hx hx' => ?_,
    fun u d old x hu => ?_, fun h0 => ?_, fun hr => hz (h.returned (by rw [hs] at hr; exact hr)),
    fun hr => hz (h.reported (by rw [hs] at hr; exact hr))⟩
  · rw [show s'.waiters = s.waiters.erase t by rw [hs], h.nodup.mem_erase_iff]
    by_cases hx : x = t
    · subst hx
      simp [hwt]
    · rw [hwne x hx, ← h.mem x]
      simp [hx]
  · rw [hs]
    exact h.nodup.erase t
  · have hxt : x ≠ t := by
      rintro rfl
      rw [hwt] at hx
      cases hx
    rw [hwne x hxt] at hx
    rw [hpcne x hxt, show s'.posts = s.posts by rw [hs]; rfl]
    exact h.queued x hx
  · have hxt : x ≠ t := by
      rintro rfl
      rw [hpct] at hx
      cases hx
    rw [hpcne x hxt] at hx
    rw [hwne x hxt] at hx'
    obtain ⟨hzero, hp⟩ := h.taken x hx hx'
    exact ⟨hz hzero, hp.frame (t := t) (p := .deqUnlock value w) (by rw [hs]; rfl)
      (fun d old => ⟨nofun, hnp t d old x⟩) (by rw [hs]; rfl)⟩
  · by_cases hut : u = t
    · subst hut
      rw [hpct] at hu
      cases hu
    · rw [hpcne u hut] at hu
      exact (hnp u d old x hu).elim
  · left
    rcases h.empty (by rw [hs] at h0; exact h0) with hw | ⟨u, hu⟩
    · rw [hs]
      simp [hw]
    · exact (hnc u hu).elim

/-- An add takes the first record off the list. -/
theorem wake {d old : Word} {x : T} {rest : List T} (h : Inv s) (hpc : s.pc t = .addWake d old)
    (hw : s.waiters = x :: rest)
    (hs : s' = { (s.setWaiting x false).setPc t (.addPost d old x) with waiters := rest })
    (hz : Zeroed s → Zeroed s') : Inv s' := by
  have hholds : (s.pc t).holds = true := by rw [hpc]; rfl
  have hok : s.value = old + d ∧ Pc.Exact d old ∧ s.value = 0#32 := by simpa [hpc, Pc.Ok] using h.ok t
  have hnp := h.not_addPost hholds (by rw [hpc]; nofun)
  obtain ⟨hxq, hxp⟩ := h.queued x ((h.mem x).mp (by simp [hw]))
  have hnd := h.nodup
  rw [hw, List.nodup_cons] at hnd
  have hxt : x ≠ t := by
    rintro rfl
    rw [hpc] at hxq
    cases hxq
  have hzero : Zeroed s := ⟨h.begun x (Pc.begun_of_queued hxq), Or.inl hok.2.2⟩
  have hpcne : ∀ u, u ≠ t → s'.pc u = s.pc u := by
    intro u hu
    rw [hs]
    simp [State.setPc, State.setWaiting, hu]
  have hpct : s'.pc t = .addPost d old x := by simp [hs, State.setPc]
  have hwne : ∀ u, u ≠ x → s'.waiting u = s.waiting u := by
    intro u hu
    rw [hs]
    simp [State.setPc, State.setWaiting, hu]
  have hwx : s'.waiting x = false := by simp [hs, State.setPc, State.setWaiting]
  have hposts : s'.posts = s.posts := by rw [hs]; rfl
  have hq : ∀ u, (s'.pc u).queued = (s.pc u).queued := by
    intro u
    by_cases hut : u = t
    · subst hut
      rw [hpct, hpc]
      rfl
    · rw [hpcne u hut]
  have hmoved : s'.pc = Function.update s.pc t (.addPost d old x) := by
    rw [hs]
    rfl
  have hc := h.control hmoved (.keep (by rw [hs]; rfl) (by rw [hpc]; rfl)) (by rw [hs]; exact hok) (Or.inl hholds) nofun
    (by rw [hs]; exact id)
  refine ⟨hc.1, hc.2.1, hc.2.2, fun y => ?_, ?_, fun y hy => ?_, fun y hy hy' => ?_,
    fun u d' old' y hu => ?_, fun _ => Or.inr ⟨t, by rw [hpct]; rfl⟩,
    fun hr => hz (h.returned (by rw [hs] at hr; exact hr)),
    fun hr => hz (h.reported (by rw [hs] at hr; exact hr))⟩
  · rw [show s'.waiters = rest by rw [hs]]
    by_cases hy : y = x
    · subst hy
      simp [hwx, hnd.1]
    · rw [hwne y hy, ← h.mem y, hw]
      simp [hy]
  · rw [hs]
    exact hnd.2
  · have hyx : y ≠ x := by
      rintro rfl
      rw [hwx] at hy
      cases hy
    rw [hwne y hyx] at hy
    rw [hq, hposts]
    exact h.queued y hy
  · refine ⟨hz hzero, ?_⟩
    by_cases hyx : y = x
    · subst hyx
      exact Or.inl ⟨⟨t, d, old, hpct⟩, by rw [hposts, hxp]⟩
    · rw [hq] at hy
      rw [hwne y hyx] at hy'
      refine (h.taken y hy hy').2.frame (t := t) (p := .addPost d old x) (by rw [hs]; rfl)
        (fun d' old' => ⟨fun he => ?_, hnp t d' old' y⟩) (by rw [hposts])
      cases he
      exact hyx rfl
  · by_cases hut : u = t
    · subst hut
      rw [hpct] at hu
      cases hu
      exact ⟨by rw [hq, hxq], hwx⟩
    · rw [hpcne u hut] at hu
      exact (hnp u d' old' y hu).elim

/-- An add posts the semaphore of the record that it has taken. -/
theorem wakePost {d old : Word} {x : T} (h : Inv s) (hpc : s.pc t = .addPost d old x)
    (hs : s' = { s.setPc t (.addWake d old) with
      sem := s'.sem
      posts := Function.update s.posts x (s.posts x + 1) })
    (hz : Zeroed s → Zeroed s') : Inv s' := by
  have hholds : (s.pc t).holds = true := by rw [hpc]; rfl
  have hok : s.value = old + d ∧ Pc.Exact d old ∧ s.value = 0#32 := by simpa [hpc, Pc.Ok] using h.ok t
  obtain ⟨hxq, hxw⟩ := h.pend t d old x hpc
  have hunique : ∀ u d' old' y, s.pc u = .addPost d' old' y → u = t :=
    fun u d' old' y hu => h.eq_of_holds hholds (by rw [hu]; rfl)
  have hx0 : s.posts x = 0 := by
    rcases (h.taken x hxq hxw).2 with ⟨-, h0⟩ | ⟨hno, -⟩
    · exact h0
    · exact (hno t d old hpc).elim
  have hpcne : ∀ u, u ≠ t → s'.pc u = s.pc u := by
    intro u hu
    rw [hs]
    simp [State.setPc, hu]
  have hpct : s'.pc t = .addWake d old := by
    rw [hs]
    simp [State.setPc]
  have hposts : s'.posts = Function.update s.posts x (s.posts x + 1) := by rw [hs]
  have hwt : s'.waiting = s.waiting := by rw [hs]; rfl
  have hwl : s'.waiters = s.waiters := by rw [hs]; rfl
  have hno : ∀ u d' old' y, s'.pc u ≠ .addPost d' old' y := by
    intro u d' old' y hu
    by_cases hut : u = t
    · subst hut
      rw [hpct] at hu
      cases hu
    · rw [hpcne u hut] at hu
      exact hut (hunique u d' old' y hu)
  have hq : ∀ u, (s'.pc u).queued = (s.pc u).queued := by
    intro u
    by_cases hut : u = t
    · subst hut
      rw [hpct, hpc]
      rfl
    · rw [hpcne u hut]
  have hmoved : s'.pc = Function.update s.pc t (.addWake d old) := by
    rw [hs]
    rfl
  have hc := h.control hmoved (.keep (by rw [hs]; rfl) (by rw [hpc]; rfl)) (by rw [hs]; exact hok) (Or.inl hholds) nofun
    (by rw [hs]; exact id)
  refine ⟨hc.1, hc.2.1, hc.2.2, by rw [hwl, hwt]; exact h.mem, by rw [hwl]; exact h.nodup,
    fun y hy => ?_, fun y hy hy' => ?_, fun u d' old' y hu => (hno u d' old' y hu).elim,
    fun _ => Or.inr ⟨t, by rw [hpct]; rfl⟩, fun hr => hz (h.returned (by rw [hs] at hr; exact hr)),
    fun hr => hz (h.reported (by rw [hs] at hr; exact hr))⟩
  · rw [hwt] at hy
    have hyx : y ≠ x := by
      rintro rfl
      rw [hxw] at hy
      cases hy
    rw [hq, hposts, Function.update_of_ne hyx]
    exact h.queued y hy
  · rw [hq] at hy
    rw [hwt] at hy'
    obtain ⟨hzero, hp⟩ := h.taken y hy hy'
    refine ⟨hz hzero, Or.inr ⟨fun u d' old' => hno u d' old' y, ?_⟩⟩
    by_cases hyx : y = x
    · subst hyx
      rw [hposts, Function.update_self, hx0]
    · rw [hposts, Function.update_of_ne hyx]
      rcases hp with ⟨⟨u, d', old', hu⟩, -⟩ | ⟨-, h1⟩
      · have hut := hunique u d' old' y hu
        subst hut
        rw [hpc] at hu
        cases hu
        exact (hyx rfl).elim
      · exact h1

theorem next {a : Act} (h : Inv s) (hs : step t a s = some s') : Inv s' := by
  obtain ⟨-, he⟩ := step_effect (h.ok t) hs
  have hz : Zeroed s → Zeroed s' := fun hz => hz.step h he
  have hok := h.ok t
  cases he with
  | post hs =>
      rw [hs]
      exact ⟨h.owner, h.ok, h.begun, h.mem, h.nodup, h.queued, h.taken, h.pend, h.empty, h.returned,
        h.reported⟩
  | move p hm => exact h.move hm hz
  | cas d old hpc hv hs => exact h.cas hpc hs hz
  | crash d old hpc ha hs =>
      rw [hs]
      exact ⟨h.owner, h.ok, h.begun, h.mem, h.nodup, h.queued, h.taken, h.pend, h.empty, h.returned,
        h.reported⟩
  | wake d old x rest hpc hw hs => exact h.wake hpc hw hs hz
  | wakePost d old x hpc hs => exact h.wakePost hpc hs hz
  | init w hpc hs =>
      exact h.clear hs (by rw [hpc]; rfl) rfl (by rw [hpc]; rfl) (by rw [hpc]; rfl) trivial
        (by rw [hpc]; rfl) nofun hz
  | link value w hpc hv hs => exact h.link hpc hv hs hz
  | noLink value w hpc hv hs =>
      rw [hpc] at hok
      refine h.clear hs (by rw [hpc]; rfl) rfl (by rw [hpc]; rfl) (by rw [hpc]; rfl) ?_
        (by rw [hpc]; rfl) nofun hz
      simpa [Pc.Ok, show s.value = value from hok] using hv
  | remove value w hpc hs =>
      rw [hpc] at hok
      exact h.unlink hok.1 (by rw [hpc]; rfl) (by rw [hpc]; rfl) hs hz
  | skip value w hpc hw hs =>
      rw [hpc] at hok
      refine h.unlink (w := w) hok (by rw [hpc]; rfl) (by rw [hpc]; rfl) ?_ hz
      have hnot : t ∉ s.waiters := fun hm => by simp [(h.mem t).mp hm] at hw
      have hself : Function.update s.waiting t false = s.waiting := by
        rw [← hw, Function.update_eq_self]
      rw [hs, List.erase_of_not_mem hnot]
      simp [State.setPc, State.setWaiting, hself]

omit [DecidableEq T] in
theorem counterNew (v : Word) : Inv (counterNew v : State T) := by
  refine ⟨fun t => ⟨nofun, nofun⟩, fun t => trivial, fun t h => ?_, fun x => ⟨nofun, nofun⟩,
    List.nodup_nil, fun x h => ?_, fun x h => ?_, fun u d old x h => ?_, fun _ => Or.inl rfl, ?_, ?_⟩
  all_goals first | cases h | nofun

end Inv

end Nsync.Counter
