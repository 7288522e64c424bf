import Mathlib

/-!
# Tokens and counters owned by threads

A flag of a shared word is *owned* when it is set exactly while one thread
claims it, and a counter *counts* a predicate when it is the number of threads
that satisfy it.  Both notions are about one flag or counter and one predicate
on threads, and one thread changes its claim at a time.
-/

namespace Nsync.Lib

variable {T : Type*}

/-- The flag `b` is set iff some thread satisfies `P`, and at most one does. -/
structure Owned (b : Bool) (P : T → Prop) : Prop where
  set_iff : b = true ↔ ∃ t, P t
  unique : ∀ t u, P t → P u → t = u

namespace Owned

variable {b b' : Bool} {P Q : T → Prop} {t u : T}

theorem congr (h : Owned b P) (hb : b' = b) (hP : ∀ u, Q u ↔ P u) : Owned b' Q where
  set_iff := by simpa only [hb, hP] using h.set_iff
  unique t u ht hu := h.unique t u ((hP t).mp ht) ((hP u).mp hu)

theorem set_of (h : Owned b P) (ht : P t) : b = true := h.set_iff.mpr ⟨t, ht⟩

theorem not_of_clear (h : Owned b P) (hb : b = false) : ¬ P t := by
  intro ht
  rw [h.set_of ht] at hb
  cases hb

/-- Thread `t` takes the token. -/
theorem take (h : Owned b P) (hb : b = false) (hb' : b' = true) (ht : Q t)
    (hne : ∀ u, u ≠ t → (Q u ↔ P u)) : Owned b' Q := by
  have hfree : ∀ u, u ≠ t → ¬ Q u := by
    intro u hu hq
    exact h.not_of_clear hb ((hne u hu).mp hq)
  refine ⟨⟨fun _ => ⟨t, ht⟩, fun _ => hb'⟩, ?_⟩
  intro u w hu hw
  have hut : u = t := by
    by_contra hn
    exact hfree u hn hu
  have hwt : w = t := by
    by_contra hn
    exact hfree w hn hw
  rw [hut, hwt]

/-- Thread `t` gives the token back. -/
theorem drop (h : Owned b P) (ht : P t) (hb' : b' = false) (hnt : ¬ Q t)
    (hne : ∀ u, u ≠ t → (Q u ↔ P u)) : Owned b' Q := by
  have hfree : ∀ u, ¬ Q u := by
    intro u hq
    by_cases hut : u = t
    · exact hnt (hut ▸ hq)
    · exact hut (h.unique u t ((hne u hut).mp hq) ht)
  refine ⟨?_, fun u w hu _ => (hfree u hu).elim⟩
  simp only [hb', Bool.false_eq_true, false_iff, not_exists]
  exact hfree

end Owned

/-- The counter `n` is the number of threads that satisfy `P`. -/
def Counts [Fintype T] (n : ℕ) (P : T → Prop) [DecidablePred P] : Prop :=
  n = (Finset.univ.filter P).card

namespace Counts

variable [Fintype T] {n n' : ℕ} {P Q : T → Prop} [DecidablePred P] [DecidablePred Q] {t : T}

theorem congr (h : Counts n P) (hn : n' = n) (hP : ∀ u, Q u ↔ P u) : Counts n' Q := by
  rw [Counts, hn, h]
  congr 1
  ext u
  simp [hP]

theorem pos_of (h : Counts n P) (ht : P t) : 0 < n := by
  rw [h]
  exact Finset.card_pos.mpr ⟨t, by simpa using ht⟩

theorem not_of_zero (h : Counts n P) (hn : n = 0) : ¬ P t := by
  intro ht
  exact absurd (h.pos_of ht) (by omega)

theorem exists_of_pos (h : Counts n P) (hn : 0 < n) : ∃ u, P u := by
  rw [h] at hn
  obtain ⟨u, hu⟩ := Finset.card_pos.mp hn
  exact ⟨u, by simpa using hu⟩

theorem exists_ne (h : Counts n P) (hn : 1 < n) (t : T) : ∃ u, u ≠ t ∧ P u := by
  rw [h] at hn
  obtain ⟨u, hu, hne⟩ := Finset.exists_mem_ne hn t
  exact ⟨u, hne, by simpa using hu⟩

theorem le_card (h : Counts n P) : n ≤ Fintype.card T := by
  rw [h]
  exact Finset.card_le_univ _

theorem eq_of_one [DecidableEq T] (h : Counts n P) (hn : n ≤ 1) {t u : T} (ht : P t) (hu : P u) :
    t = u := by
  by_contra hne
  have hsub : ({t, u} : Finset T) ⊆ Finset.univ.filter P := by
    intro x hx
    rcases Finset.mem_insert.mp hx with rfl | hx
    · simpa using ht
    · rw [Finset.mem_singleton] at hx
      subst hx
      simpa using hu
  have hcard := Finset.card_le_card hsub
  rw [Finset.card_pair hne] at hcard
  rw [Counts] at h
  omega

variable [DecidableEq T]

/-- Thread `t` is added to the count. -/
theorem incr (h : Counts n P) (hnt : ¬ P t) (ht : Q t) (hne : ∀ u, u ≠ t → (Q u ↔ P u))
    (hn : n' = n + 1) : Counts n' Q := by
  have hset : Finset.univ.filter Q = insert t (Finset.univ.filter P) := by
    ext u
    by_cases hut : u = t
    · subst hut
      simp [ht]
    · simp [hut, hne u hut]
  rw [Counts, hset, Finset.card_insert_of_notMem (by simpa using hnt), hn, h]

/-- Thread `t` leaves the count. -/
theorem decr (h : Counts n P) (ht : P t) (hnt : ¬ Q t) (hne : ∀ u, u ≠ t → (Q u ↔ P u))
    (hn : n' = n - 1) : Counts n' Q := by
  have hset : Finset.univ.filter Q = (Finset.univ.filter P).erase t := by
    ext u
    by_cases hut : u = t
    · subst hut
      simp [hnt]
    · simp [hut, hne u hut]
  rw [Counts, hset, Finset.card_erase_of_mem (by simpa using ht), hn, h]

end Counts

end Nsync.Lib
