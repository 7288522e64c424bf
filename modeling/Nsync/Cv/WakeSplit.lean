import Nsync.Cv.WakeInv
import Nsync.Lib.Run

/-!
# A wake-up splits its list

Every record of the list is either moved to the queue of the mutex or woken, and a
call can always go on to its end.
-/

set_option linter.unusedSectionVars false

namespace Nsync.Cv.Wake

open Nsync.Mu

variable {α M : Type} [DecidableEq α] [DecidableEq M] {nw₀ : α → Nw M} {L : List α}
  {s s' : State α M}

/-! ## The call returns -/

/-- The call can return by steps of its own. -/
def Returns (s : State α M) : Prop :=
  ∃ s', Relation.ReflTransGen (fun a b => step a = some b) s s' ∧ s'.pc = .done

theorem Returns.head (h : step s = some s') (hr : Returns s') : Returns s := by
  obtain ⟨u, hu, hd⟩ := hr
  exact ⟨u, Relation.ReflTransGen.head h hu, hd⟩

theorem Good.returns_wake (hg : Good nw₀ L s) (hL : L.Nodup) {q : Option α} (hpc : s.pc = .wake q) :
    Returns s := by
  induction hn : s.toWake.length generalizing s q with
  | zero =>
    have hplace := hg.place
    rw [hpc] at hplace
    have hq : q = none := by
      rw [hplace.2.2.2, List.length_eq_zero_iff.mp hn]
      rfl
    subst hq
    have hdone : Wake.step s = some { s with pc := .done } := by simp only [Wake.step, hpc]
    exact ⟨_, Relation.ReflTransGen.single hdone, rfl⟩
  | succ n ih =>
    obtain ⟨x, l, hl⟩ := List.exists_cons_of_length_eq_add_one hn
    have hplace := hg.place
    rw [hpc] at hplace
    have hq : q = some x := by rw [hplace.2.2.2, hl, List.head?_cons]
    subst hq
    have htake : Wake.step s = some
        { s with pc := .clear x (nextIn s.toWake x), toWake := s.toWake.erase x } := by
      simp only [Wake.step, hpc]
    set s₁ : State α M := { s with pc := .clear x (nextIn s.toWake x), toWake := s.toWake.erase x }
      with hs₁
    have hclear : Wake.step s₁ = some { s₁ with
        nw := Function.update s₁.nw x { s₁.nw x with waiting := false }
        pc := .post x (nextIn s.toWake x)
        cleared := s₁.cleared ++ [x] } := rfl
    set s₂ : State α M := { s₁ with
        nw := Function.update s₁.nw x { s₁.nw x with waiting := false }
        pc := .post x (nextIn s.toWake x)
        cleared := s₁.cleared ++ [x] } with hs₂
    have hpost : Wake.step s₂ = some
        { s₂ with pc := .wake (nextIn s.toWake x), posted := s₂.posted ++ [x] } := rfl
    have hg₃ := ((hg.step hL htake).step hL hclear).step hL hpost
    refine Returns.head htake (Returns.head hclear (Returns.head hpost (ih hg₃ rfl ?_)))
    change (s.toWake.erase x).length = n
    rw [hl, List.erase_cons_head]
    simpa [hl] using hn

theorem Good.returns_releaseLoad (hg : Good nw₀ L s) (hL : L.Nodup) {m : M} {b : Bool}
    (hpc : s.pc = .releaseLoad m b) : Returns s := by
  have hload : Wake.step s = some { s with pc := .releaseCas m b (s.mu m).word } := by
    simp only [Wake.step, hpc]
  have hcas : Wake.step { s with pc := .releaseCas m b (s.mu m).word } = some
      (({ s with pc := .releaseCas m b (s.mu m).word } : State α M).setWord m
        (transferReleaseWord b (s.mu m).word)).toWakeLoop := by
    simp only [Wake.step, if_true]
  exact Returns.head hload (Returns.head hcas
    (((hg.step hL hload).step hL hcas).returns_wake hL rfl))

theorem Good.returns_loop (hg : Good nw₀ L s) (hL : L.Nodup) {m : M} {cant fw tw wr : Bool}
    {q : Option α} (hpc : s.pc = .loop m cant fw tw wr q) : Returns s := by
  have hplace := hg.place
  rw [hpc] at hplace
  obtain ⟨c, f, dn, rest, hq, hl⟩ := hplace
  induction rest generalizing s dn tw wr q with
  | nil =>
    subst hq
    have hend : Wake.step s = some { s with
        pc := .releaseLoad m (tw && !wr)
        requested := tw && !wr } := by
      simp only [Wake.step, hpc, List.head?_nil]
    exact Returns.head hend ((hg.loop_end hl).returns_releaseLoad hL rfl)
  | cons x rest ih =>
    subst hq
    obtain ⟨u, tw', wr', hu, hpu, hlu, hgu⟩ := hg.loop_round hL hpc hl
    exact Returns.head hu (ih hgu hpu _ rfl hlu)

theorem Good.returns_first (hg : Good nw₀ L s) (hL : L.Nodup) {f : α} {m : M} {cant : Bool}
    {n : Option α} (hpc : s.pc = .first f m cant n) : Returns s := by
  cases cant with
  | true =>
    have h : Wake.step s = some { s.transfer m f with
        pc := .loop m true (s.nw f).isWriter (s.nw f).isWriter false n } := by
      simp only [Wake.step, hpc, if_true]
    exact Returns.head h ((hg.step hL h).returns_loop hL rfl)
  | false =>
    have h : Wake.step s = some { s with
        pc := .loop m false (s.nw f).isWriter false (!(s.nw f).isWriter) n } := by
      simp only [Wake.step, hpc, reduceCtorEq, if_false]
    exact Returns.head h ((hg.step hL h).returns_loop hL rfl)

theorem Good.returns_cas (hg : Good nw₀ L s) (hL : L.Nodup) {f : α} {m : M} {old : Word}
    {n : Option α} (hpc : s.pc = .cas f m old n) : Returns s := by
  by_cases hw : (s.mu m).word = old
  · have h : Wake.step s = some { s.setWord m (transferWord old) with
        pc := .first f m (decide (old &&& (s.nw f).zeroToAcquire ≠ 0#32)) n
        acquired := some ⟨(s.mu m).word, transferWord old, (s.mu m).waiters⟩ } := by
      simp only [Wake.step, hpc, hw, if_true]
    exact Returns.head h ((hg.step hL h).returns_first hL rfl)
  · have h : Wake.step s = some s.toWakeLoop := by simp only [Wake.step, hpc, hw, if_false]
    exact Returns.head h ((hg.step hL h).returns_wake hL rfl)

theorem Good.returns_load (hg : Good nw₀ L s) (hL : L.Nodup) {f : α} {m : M}
    (hpc : s.pc = .load f m) : Returns s := by
  have hor : Wake.step s = some { s with pc := .cas f m (s.mu m).word (nextIn s.toWake f) } ∨
      Wake.step s = some s.toWakeLoop := by
    simp only [Wake.step, hpc]
    split
    · exact Or.inl rfl
    · exact Or.inr rfl
  rcases hor with h | h
  · exact Returns.head h ((hg.step hL h).returns_cas hL rfl)
  · exact Returns.head h ((hg.step hL h).returns_wake hL rfl)

theorem Good.returns_start (hg : Good nw₀ L s) (hL : L.Nodup) (hne : L ≠ []) (hpc : s.pc = .start) :
    Returns s := by
  have hplace := hg.place
  rw [hpc] at hplace
  obtain ⟨f, l, hl⟩ := List.exists_cons_of_ne_nil (hplace.1.toWake ▸ hne)
  have hor : (∃ m, Wake.step s = some { s with pc := .load f m }) ∨
      Wake.step s = some s.toWakeLoop := by
    simp only [Wake.step, hpc, hl]
    split
    · split
      · exact Or.inl ⟨_, rfl⟩
      · exact Or.inr rfl
    · exact Or.inr rfl
  rcases hor with ⟨m, h⟩ | h
  · exact Returns.head h ((hg.step hL h).returns_load hL rfl)
  · exact Returns.head h ((hg.step hL h).returns_wake hL rfl)

/-- From every state the call returns, if the others let it. -/
theorem Good.returns (hg : Good nw₀ L s) (hL : L.Nodup) (hne : L ≠ []) : Returns s := by
  cases hpc : s.pc with
  | start => exact hg.returns_start hL hne hpc
  | load f m => exact hg.returns_load hL hpc
  | cas f m old n => exact hg.returns_cas hL hpc
  | first f m cant n => exact hg.returns_first hL hpc
  | loop m cant fw tw wr q => exact hg.returns_loop hL hpc
  | releaseLoad m b => exact hg.returns_releaseLoad hL hpc
  | releaseCas m b old =>
    by_cases hw : (s.mu m).word = old
    · have h : Wake.step s = some (s.setWord m (transferReleaseWord b old)).toWakeLoop := by
        simp only [Wake.step, hpc, hw, if_true]
      exact Returns.head h ((hg.step hL h).returns_wake hL rfl)
    · have h : Wake.step s = some { s with pc := .releaseLoad m b } := by
        simp only [Wake.step, hpc, hw, if_false]
      exact Returns.head h ((hg.step hL h).returns_releaseLoad hL rfl)
  | wake q => exact hg.returns_wake hL hpc
  | clear x n =>
    have h : Wake.step s = some { s with
        nw := Function.update s.nw x { s.nw x with waiting := false }
        pc := .post x n
        cleared := s.cleared ++ [x] } := by
      simp only [Wake.step, hpc]
    have h' : Wake.step { s with
        nw := Function.update s.nw x { s.nw x with waiting := false }
        pc := .post x n
        cleared := s.cleared ++ [x] } = some _ := rfl
    exact Returns.head h (Returns.head h' (((hg.step hL h).step hL h').returns_wake hL rfl))
  | post x n =>
    have h : Wake.step s = some { s with pc := .wake n, posted := s.posted ++ [x] } := by
      simp only [Wake.step, hpc]
    exact Returns.head h ((hg.step hL h).returns_wake hL rfl)
  | done => exact ⟨s, Relation.ReflTransGen.refl, hpc⟩

/-! ## How the list is split -/

/-- The CAS and the records that have been moved, in any state. -/
theorem Good.moved (hg : Good nw₀ L s) :
    (∀ c, s.acquired = some c → CasOk nw₀ L c) ∧
      ∃ l : List α, l.Sublist L ∧ s.moved = l.filter (moves nw₀ L s.acquired) := by
  have hfresh : Fresh L s → ∃ l : List α, l.Sublist L ∧ s.moved = l.filter (moves nw₀ L s.acquired) :=
    fun hf => ⟨[], List.nil_sublist L, hf.moved⟩
  have hdecided : Decided nw₀ L s → (∀ c, s.acquired = some c → CasOk nw₀ L c) ∧
      ∃ l : List α, l.Sublist L ∧ s.moved = l.filter (moves nw₀ L s.acquired) :=
    fun hd => ⟨hd.cas, L, List.Sublist.refl L, hd.moved⟩
  have hnone : s.acquired = none → ∀ c, s.acquired = some c → CasOk nw₀ L c := by
    intro hn c hc
    rw [hn] at hc
    cases hc
  have hplace := hg.place
  cases hpc : s.pc with rw [hpc] at hplace
  | start => exact ⟨hnone hplace.2, hfresh hplace.1⟩
  | load f m => exact ⟨hnone hplace.2.1, hfresh hplace.1⟩
  | cas f m old n => exact ⟨hnone hplace.2.1, hfresh hplace.1⟩
  | first f m cant n =>
    obtain ⟨hf, -, -, c, hc, hok, -⟩ := hplace
    refine ⟨fun c' hc' => ?_, hfresh hf⟩
    rw [← Option.some.inj (hc.symm.trans hc')]
    exact hok
  | loop m cant fw tw wr q =>
    obtain ⟨c, f, dn, rest, -, hl⟩ := hplace
    refine ⟨fun c' hc' => ?_, dn, ?_, ?_⟩
    · rw [← Option.some.inj (hl.acquired.symm.trans hc')]
      exact hl.cas
    · rw [hl.split]
      exact List.sublist_append_left dn rest
    · rw [hl.moved, hl.acquired]
  | releaseLoad m b => exact hdecided hplace.1
  | releaseCas m b old => exact hdecided hplace.1
  | wake q => exact hdecided hplace.1
  | clear x n => exact hdecided hplace.1
  | post x n => exact hdecided hplace.1
  | done => exact hdecided hplace.1

/-- What the spinlock protects, at each place where it is held. -/
theorem Good.held (hg : Good nw₀ L s) {m : M} (hm : s.pc.holds = some m) :
    ∃ c, s.acquired = some c ∧ Held nw₀ s m c := by
  have hplace := hg.place
  cases hpc : s.pc with rw [hpc] at hplace hm
  | first f m' cant n =>
    cases hm
    obtain ⟨hf, -, -, c, hc, -, hq, -⟩ := hplace
    exact ⟨c, hc, by rw [hq, hf.moved, List.append_nil], by simp [hf.moved]⟩
  | loop m' cant fw tw wr q =>
    cases hm
    obtain ⟨c, f, dn, rest, -, hl⟩ := hplace
    exact ⟨c, hl.acquired, hl.held⟩
  | releaseLoad m' b =>
    cases hm
    exact hplace.2.2.2.2.2
  | releaseCas m' b old =>
    cases hm
    exact hplace.2.2.2.2.2
  | _ => cases hm

theorem Good.taken (hg : Good nw₀ L s) (hL : L.Nodup) {x : α} (hx : s.pc.taken = some x) :
    x ∉ s.toWake := by
  have hplace := hg.place
  cases hpc : s.pc with rw [hpc] at hplace hx
  | clear y n =>
    cases hx
    have hnd := (left_sublist nw₀ L s).nodup hL
    rw [hplace.2.1] at hnd
    exact (List.nodup_cons.mp (List.nodup_append.mp hnd).2.1).1
  | _ => cases hx

end Nsync.Cv.Wake
