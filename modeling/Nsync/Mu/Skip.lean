import Nsync.Mu.Summary

/-!
# Skipping waiters with the same false condition

A scan that has found a condition false goes on behind the ring of waiters that
share it, so that it evaluates each condition once.  When one ring of several
waiters is the whole queue, the test for its first member fails, and the
condition is evaluated for every one of them.
-/

namespace Nsync.Mu

open Nsync.Lib

variable {T σ : Type} [DecidableEq T]

section

variable {h : Links T} {a b r : List T} {p : T}

omit [DecidableEq T] in
theorem prev_of_first (hr : h.Ring (p :: r)) : some (h.prev p) = (p :: r).getLast? := by
  have hr' : h.Ring ([] ++ p :: r) := hr
  have := hr'.neighbours.2
  rwa [List.append_nil] at this

/-- Where the scan goes on from the first element of a ring. -/
theorem skip_of_first (hr : h.Ring (p :: r)) (hnd : (a ++ p :: (r ++ b)).Nodup) :
    skipPastSameCondition h (a ++ p :: (r ++ b)) p =
      if a = [] ∧ b = [] then r.head? else b.head? := by
  obtain ⟨-, hnd₂, hd⟩ := List.nodup_append.mp hnd
  obtain ⟨hp₂, hnd₂⟩ := List.nodup_cons.mp hnd₂
  have hp₁ : p ∉ a := fun hm => hd p hm p (by simp) rfl
  have hprev := prev_of_first hr
  rcases List.eq_nil_or_concat r with rfl | ⟨r, z, rfl⟩
  · have hself : h.prev p = p := by simpa using hprev
    rw [skipPastSameCondition, hself, if_neg (by simp), dllNext_append hp₁]
    split_ifs with hab
    · simp [hab.2]
    · simp
  · have hz : h.prev p = z := by simpa [List.getLast?_cons] using hprev
    have hzp : z ≠ p := by
      rintro rfl
      exact hp₂ (by simp)
    have hzr : z ∉ a ++ p :: r := by
      have : (a ++ p :: r ++ z :: b).Nodup := by
        simpa [List.concat_eq_append, List.append_assoc] using hnd
      exact fun hm => (List.nodup_append.mp this).2.2 z hm z (by simp) rfl
    have hzb : z ∉ b := fun hm => (List.nodup_append.mp hnd₂).2.2 z (by simp) z hm rfl
    -- the element before `p` in the circular queue is `z` only if the ring is the queue
    have hlink : some z = linkPrev (a ++ p :: (r.concat z ++ b)) p ↔ a = [] ∧ b = [] := by
      by_cases ha : a = []
      · subst ha
        rw [List.nil_append, linkPrev_head hp₂]
        rcases List.eq_nil_or_concat b with rfl | ⟨b, y, rfl⟩
        · simp [List.getLast?_cons]
        · have hzy : z ≠ y := by
            rintro rfl
            exact hzb (by simp)
          simp [List.getLast?_cons, List.getLast?_append, hzy]
      · rw [linkPrev_append hp₁ ha]
        have hne : a.getLast? ≠ some z := by
          intro hlast
          exact hzr (by simp [List.mem_of_getLast? hlast])
        simp [ha, hne.symm]
    rw [skipPastSameCondition, hz]
    split_ifs with hskip hab hab
    · exact (hskip.2 (hlink.mpr hab)).elim
    · have hform : a ++ p :: (r.concat z ++ b) = (a ++ p :: r) ++ z :: b := by
        simp [List.concat_eq_append, List.append_assoc]
      rw [hform, dllNext_append hzr]
    · rw [dllNext_append hp₁, hab.2, List.append_nil]
    · exact (hskip ⟨hzp, fun hl => hab (hlink.mp hl)⟩).elim

end

/-! ## Evaluations in a pass -/

/-- The number of conditions that thread `t` calls in its next `n` steps, up to
the end of its pass over the new waiters. -/
def scanEvaluations (E : Env σ) (t : T) : ℕ → State T σ → ℕ
  | 0, _ => 0
  | n + 1, s =>
      match s.pc t with
      | .unlockSlow m k (.scan sc) =>
          (if ((s.pc t).tests s.wtr).isSome then 1 else 0) +
            scanEvaluations E t n (scanStep E s t m k sc)
      | _ => 0

/-- Thread `t` passes over the new waiters `q`, testing conditions, and `x` is the
next one to look at. -/
def Passes (s : State T σ) (t : T) (q : List T) (x : Option T) : Prop :=
  match s.pc t with
  | .unlockSlow _ _ (.scan sc) => sc.newWaiters = q ∧ sc.p = x ∧ sc.testing = true ∧
      sc.wakeType ≠ some .writer
  | _ => False

instance (s : State T σ) (t : T) (q : List T) (x : Option T) : Decidable (Passes s t q x) := by
  unfold Passes
  split <;> infer_instance

/-- All waiters of `q` have conditions, and these are false. -/
def AllConditionsFalse (E : Env σ) (s : State T σ) (q : List T) : Prop :=
  ∀ x ∈ q, (s.wtr x).cond.map (·.holds E s.prot) = some false

instance (E : Env σ) (s : State T σ) (q : List T) : Decidable (AllConditionsFalse E s q) :=
  inferInstanceAs (Decidable (∀ x ∈ q, _))

section

variable {E : Env σ} {s : State T σ} {t x : T} {q : List T} {n : ℕ}

omit [DecidableEq T] in
theorem passes_iff {x : Option T} : Passes s t q x ↔ ∃ m k sc,
    s.pc t = .unlockSlow m k (.scan sc) ∧ sc.newWaiters = q ∧ sc.p = x ∧ sc.testing = true ∧
    sc.wakeType ≠ some .writer := by
  constructor
  · intro h
    unfold Passes at h
    split at h
    · next m k sc hpc => exact ⟨m, k, sc, hpc, h⟩
    · exact h.elim
  · rintro ⟨m, k, sc, hpc, h⟩
    rw [Passes, hpc]
    exact h

theorem Passes.evaluations_none (hp : Passes s t q none) : scanEvaluations E t n s = 0 := by
  obtain ⟨m, k, sc, hpc, -, hx, ht, -⟩ := passes_iff.mp hp
  cases n with
  | zero => rfl
  | succ n =>
      have hend : scanStep E s t m k sc = s.setPc t (.unlockSlow m k
          (.scanSpin { sc with setAllFalse := sc.setAllFalse && true } .load)) := by
        rw [scanStep]
        simp only [hx, scanStep.scanEnd, ht, if_true, Option.isNone_none]
      rw [scanEvaluations, hpc]
      simp only [hend, Pc.tests, hx, Option.filter_none, ite_self, Option.isSome_none,
        Bool.false_eq_true, if_false, Nat.zero_add]
      cases n with
      | zero => rfl
      | succ n => rw [scanEvaluations, State.setPc_self]

/-- A false condition is evaluated, and the pass goes on where
`skip_past_same_condition` says. -/
theorem Passes.evaluations_some (hp : Passes s t q (some x)) (hf : AllConditionsFalse E s q)
    (hx : x ∈ q) : ∃ s', Passes s' t q (skipPastSameCondition s.links q x) ∧
      AllConditionsFalse E s' q ∧ s'.links = s.links ∧
      ∀ n, scanEvaluations E t (n + 1) s = 1 + scanEvaluations E t n s' := by
  obtain ⟨m, k, sc, hpc, hq, hp, ht, hw⟩ := passes_iff.mp hp
  obtain ⟨c, hc, hfalse⟩ := Option.map_eq_some_iff.mp (hf x hx)
  have hstep : scanStep E s t m k sc = s.setPc t (.unlockSlow m k
      (.scan { sc with p := skipPastSameCondition s.links q x })) := by
    rw [scanStep, hp]
    simp [hw, hc, ht, conditionTrue, hfalse, hq]
  have htests : ((s.pc t).tests s.wtr).isSome = true := by
    simp [hpc, Pc.tests, hw, hp, hc, Option.filter]
  refine ⟨s.setPc t (.unlockSlow m k (.scan { sc with p := skipPastSameCondition s.links q x })),
    passes_iff.mpr ⟨m, k, _, State.setPc_self .., hq, rfl, ht, hw⟩, hf, rfl, fun n => ?_⟩
  rw [scanEvaluations, htests, hpc]
  simp only [hstep, if_true]

end

/-! ## One evaluation for each ring -/

section

variable {E : Env σ} {s : State T σ} {t : T} {A B segs : List (List T)} {n : ℕ}

omit [DecidableEq T] in
theorem flatten_eq_nil_of_rings {h : Links T} (hr : ∀ r ∈ A, h.Ring r) :
    A.flatten = [] ↔ A = [] := by
  constructor
  · intro hf
    cases A with
    | nil => rfl
    | cons r A =>
        rw [List.flatten_cons, List.append_eq_nil_iff] at hf
        exact ((hr r (by simp)).ne_nil hf.1).elim
  · rintro rfl
    rfl

omit [DecidableEq T] in
theorem length_le_of_rings {h : Links T} (hr : ∀ r ∈ A, h.Ring r) :
    A.length ≤ A.flatten.length := by
  induction A with
  | nil => simp
  | cons r A ih =>
      have hpos : 0 < r.length := List.length_pos_iff.mpr (hr r (by simp)).ne_nil
      have hle := ih fun r hr' => hr r (by simp [hr'])
      rw [List.flatten_cons, List.length_append, List.length_cons]
      omega

/-- The queue is one ring of several waiters. -/
def OneRing (segs : List (List T)) : Prop := segs.length = 1 ∧ 2 ≤ segs.flatten.length

/-- From the first of a ring the scan goes on behind it, unless the ring is the
whole queue and has other members. -/
theorem skip_iff {r : List T} {p : T} (hr : ∀ r' ∈ A ++ r :: B, s.links.Ring r')
    (hp : r.head? = some p) (hnd : (A ++ r :: B).flatten.Nodup) :
    skipPastSameCondition s.links (A ++ r :: B).flatten p = B.flatten.head? ↔
      ¬ OneRing (A ++ r :: B) := by
  obtain ⟨r', rfl⟩ := List.head?_eq_some_iff.mp hp
  have hform : (A ++ (p :: r') :: B).flatten = A.flatten ++ p :: (r' ++ B.flatten) := by simp
  have hA := flatten_eq_nil_of_rings (A := A) fun r hr' => hr r (by simp [hr'])
  have hB := flatten_eq_nil_of_rings (A := B) fun r hr' => hr r (by simp [hr'])
  rw [hform] at hnd
  rw [OneRing, hform, skip_of_first (hr _ (by simp)) hnd]
  split_ifs with hab
  · obtain ⟨ha, hb⟩ := hab
    obtain rfl := hA.mp ha
    obtain rfl := hB.mp hb
    cases r' <;> simp
  · have hlen : (A ++ (p :: r') :: B).length ≠ 1 := by
      intro hlen
      rw [List.length_append, List.length_cons] at hlen
      apply hab
      rw [hA, hB, ← List.length_eq_zero_iff, ← List.length_eq_zero_iff]
      omega
    simp only [hlen, false_and, not_false_eq_true]

/-- A pass that has reached a ring evaluates one condition for it and one for
each later ring. -/
theorem Passes.evaluations_eq (hr : ∀ r ∈ A ++ B, s.links.Ring r)
    (hnd : (A ++ B).flatten.Nodup) (hone : ¬ OneRing (A ++ B))
    (hp : Passes s t (A ++ B).flatten B.flatten.head?)
    (hf : AllConditionsFalse E s (A ++ B).flatten) (hn : B.length ≤ n) :
    scanEvaluations E t n s = B.length := by
  induction B generalizing A s n with
  | nil => exact hp.evaluations_none
  | cons r B ih =>
      obtain ⟨p, r', rfl⟩ := List.exists_cons_of_ne_nil (hr r (by simp)).ne_nil
      obtain ⟨s', hp', hf', hlinks, hcount⟩ := hp.evaluations_some (x := p) hf (by simp)
      have hassoc : A ++ (p :: r') :: B = (A ++ [p :: r']) ++ B := by simp
      rw [(skip_iff hr rfl hnd).mpr hone] at hp'
      rw [hassoc] at hr hnd hone hp' hf'
      cases n with
      | zero => simp at hn
      | succ n =>
          rw [hcount n, ih (hlinks.symm ▸ hr) hnd hone hp' hf' (by simpa using hn), List.length_cons]
          omega

/-- When the queue is one ring of several waiters the pass evaluates their
condition more than once. -/
theorem Passes.evaluations_of_oneRing (hr : ∀ r ∈ segs, s.links.Ring r)
    (hnd : segs.flatten.Nodup) (hone : OneRing segs)
    (hp : Passes s t segs.flatten segs.flatten.head?)
    (hf : AllConditionsFalse E s segs.flatten) (hn : 2 ≤ n) :
    2 ≤ scanEvaluations E t n s := by
  obtain ⟨r, rfl⟩ := List.length_eq_one_iff.mp hone.1
  have hlen := hone.2
  obtain ⟨n, rfl⟩ : ∃ n', n = n' + 2 := ⟨n - 2, by omega⟩
  rw [List.flatten_singleton] at hnd hp hf hlen
  rcases r with _ | ⟨x, _ | ⟨y, r⟩⟩
  · simp at hlen
  · simp at hlen
  · obtain ⟨s', hp', hf', -, hcount⟩ := hp.evaluations_some (x := x) hf (by simp)
    have hskip : skipPastSameCondition s.links (x :: y :: r) x = some y := by
      have := skip_of_first (a := []) (b := []) (p := x) (r := y :: r) (hr _ (by simp))
        (by simpa using hnd)
      simpa using this
    rw [hskip] at hp'
    obtain ⟨s'', -, -, -, hcount'⟩ := hp'.evaluations_some (x := y) hf' (by simp)
    rw [hcount, hcount']
    omega

/-- `skip_past_same_condition` goes from the first waiter of a ring to the one
behind the ring, and a pass over a queue of false conditions evaluates one for
each ring, exactly if the queue is not one ring of several waiters. -/
theorem skip_and_evaluations_iff (hne : segs.flatten ≠ []) (hnd : segs.flatten.Nodup)
    (hr : ∀ r ∈ segs, s.links.Ring r) :
    ((∀ A r B p, segs = A ++ r :: B → r.head? = some p →
      skipPastSameCondition s.links segs.flatten p = B.flatten.head?) ↔ ¬ OneRing segs) ∧
    (Passes s t segs.flatten segs.flatten.head? → AllConditionsFalse E s segs.flatten →
      ∀ n, segs.flatten.length ≤ n →
        (scanEvaluations E t n s = segs.length ↔ ¬ OneRing segs)) := by
  refine ⟨⟨fun hskip => ?_, fun hone A r B p hsegs hp => ?_⟩, fun hp hf n hn => ⟨?_, fun hone => ?_⟩⟩
  · obtain ⟨r, B, rfl⟩ := List.exists_cons_of_ne_nil (l := segs) (by rintro rfl; simp at hne)
    obtain ⟨p, r', rfl⟩ := List.exists_cons_of_ne_nil (hr r (by simp)).ne_nil
    have := hskip [] (p :: r') B p rfl rfl
    exact (skip_iff (A := []) hr rfl hnd).mp this
  · subst hsegs
    exact (skip_iff hr hp hnd).mpr hone
  · intro hcount hone
    have := Passes.evaluations_of_oneRing hr hnd hone hp hf (hone.2.trans hn)
    rw [hcount, hone.1] at this
    omega
  · exact Passes.evaluations_eq (A := []) hr hnd hone hp hf ((length_le_of_rings hr).trans hn)

/-- Two threads wait for conditions on `a` and `b`, and the second one is about to
test them. -/
def twoConditionsRun (a b : Addr) : List (Fin 3 × Act Bool) :=
  List.flatten [[(1, .call (.lock .writer))], goOn 1 1,
    [(1, .call (.muWait (some ⟨1, a, none⟩) false))], goOn 1 9,
    [(2, .call (.lock .writer))], goOn 2 3, [(2, .call (.muWait (some ⟨1, b, none⟩) false))],
    goOn 2 12]

theorem skip_and_evaluations_twoRings : ∃ s : State (Fin 3) Bool,
    Reachable flagEnv Regular false s ∧ skipPastSameCondition s.links [1, 2] 1 = some 2 ∧
    scanEvaluations flagEnv 2 2 s = 2 := by
  obtain ⟨s, hs, hf⟩ := Reachable.exists_of_exec (E := flagEnv) (P := Regular) (x := false)
    (twoConditionsRun 2 3) (fun s => decide (Passes s 2 [1, 2] (some 1) ∧
      AllConditionsFalse flagEnv s [1, 2] ∧ (s.links.next 1 = 1 ∧ s.links.prev 1 = 1) ∧
      s.links.next 2 = 2 ∧ s.links.prev 2 = 2)) (by decide +kernel)
  obtain ⟨hp, hfalse, h1, h2⟩ := of_decide_eq_true hf
  have hr : ∀ r ∈ [[(1 : Fin 3)], [2]], s.links.Ring r := by
    simpa [Links.ring_singleton] using ⟨h1, h2⟩
  have hne : [[(1 : Fin 3)], [2]].flatten ≠ [] := by decide
  have hmain := skip_and_evaluations_iff (E := flagEnv) (s := s) (t := 2) hne (by decide) hr
  have hone : ¬ OneRing [[(1 : Fin 3)], [2]] := by simp [OneRing]
  exact ⟨s, hs, hmain.1.mpr hone [] [1] [[2]] 1 rfl rfl, (hmain.2 hp hfalse 2 (by decide)).mpr hone⟩

/-- Two waiters with the same condition are all the queue.  From the first of them
the scan goes on to the second, and evaluates the condition again. -/
theorem skip_within_oneRing : ∃ s : State (Fin 3) Bool, Reachable flagEnv Regular false s ∧
    s.links.Ring [1, 2] ∧ Passes s 2 [1, 2] (some 1) ∧ AllConditionsFalse flagEnv s [1, 2] ∧
    skipPastSameCondition s.links [1, 2] 1 = some 2 ∧ scanEvaluations flagEnv 2 2 s = 2 := by
  obtain ⟨s, hs, hf⟩ := Reachable.exists_of_exec (E := flagEnv) (P := Regular) (x := false)
    (twoConditionsRun 2 2) (fun s => decide (Passes s 2 [1, 2] (some 1) ∧
      AllConditionsFalse flagEnv s [1, 2] ∧ (s.links.next 1 = 2 ∧ s.links.prev 2 = 1) ∧
      (s.links.next 2 = 1 ∧ s.links.prev 1 = 2) ∧
      skipPastSameCondition s.links [1, 2] 1 = some 2 ∧ scanEvaluations flagEnv 2 2 s = 2))
      (by decide +kernel)
  obtain ⟨hp, hfalse, h12, h21, hskip, hcount⟩ := of_decide_eq_true hf
  refine ⟨s, hs, ⟨by simp, ?_, ?_⟩, hp, hfalse, hskip, hcount⟩
  · exact List.isChain_pair.mpr h12
  · simpa [Links.Linked] using h21

end

end Nsync.Mu
