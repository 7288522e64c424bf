import Mathlib.Data.List.Nodup
import Mathlib.Order.Basic
import Mathlib.Logic.Relation

/-!
# Locks and their owners

Every lock has at most one owner, and every thread has a list of the locks that it
holds.  If every lock that a thread waits for is above all those that it holds, in some
order of the locks, then no threads wait for each other in a circle.
-/

namespace Nsync.Lib

variable {T K : Type*}

/-- The owner of each lock is the thread that holds it. -/
structure Locks (mu : K → Option T) (held : T → List K) : Prop where
  owner : ∀ k t, mu k = some t ↔ k ∈ held t
  nodup : ∀ t, (held t).Nodup

namespace Locks

variable {mu mu' : K → Option T} {held held' : T → List K}

/-- Thread `t` takes the locks `locks`, which are free, and gives back `unlocks`. -/
theorem step (h : Locks mu held) (t : T) (locks unlocks : List K)
    (hne : ∀ u, u ≠ t → held' u = held u)
    (hperm : (unlocks ++ held' t).Perm (locks ++ held t)) (hlocks : locks.Nodup)
    (hfree : ∀ k ∈ locks, mu k = none) (hdisj : ∀ k ∈ locks, k ∉ unlocks)
    (htake : ∀ k ∈ locks, mu' k = some t) (hgive : ∀ k ∈ unlocks, mu' k = none)
    (hkeep : ∀ k, k ∉ locks → k ∉ unlocks → mu' k = mu k) : Locks mu' held' := by
  have hnot : ∀ k ∈ locks, ∀ u, k ∉ held u := by
    intro k hk u hu
    rw [← h.owner, hfree k hk] at hu
    cases hu
  have hnd : (unlocks ++ held' t).Nodup := by
    refine hperm.nodup_iff.mpr (List.nodup_append.mpr ⟨hlocks, h.nodup t, ?_⟩)
    rintro k hk _ hk' rfl
    exact hnot k hk t hk'
  have hmem : ∀ k, k ∈ held' t ↔ (k ∈ locks ∨ k ∈ held t) ∧ k ∉ unlocks := by
    intro k
    have hiff := hperm.mem_iff (a := k)
    rw [List.mem_append, List.mem_append] at hiff
    constructor
    · intro hk
      exact ⟨hiff.mp (Or.inr hk), fun hu => (List.nodup_append.mp hnd).2.2 k hu k hk rfl⟩
    · rintro ⟨hk, hu⟩
      exact (hiff.mpr hk).resolve_left hu
  constructor
  · intro k u
    by_cases hut : u = t
    · subst hut
      rw [hmem]
      by_cases hk : k ∈ locks
      · simp [htake k hk, hk, hdisj k hk]
      · by_cases hku : k ∈ unlocks
        · simp [hgive k hku, hku]
        · simp [hkeep k hk hku, h.owner, hk, hku]
    · rw [hne u hut]
      by_cases hk : k ∈ locks
      · rw [htake k hk]
        exact iff_of_false (fun h => hut (Option.some.inj h).symm) (hnot k hk u)
      · by_cases hku : k ∈ unlocks
        · have hkt : k ∈ held t := by
            have := hperm.mem_iff.mp (List.mem_append_left _ hku)
            exact (List.mem_append.mp this).resolve_left hk
          rw [hgive k hku]
          refine iff_of_false (by simp) fun hu => ?_
          rw [← h.owner] at hkt hu
          rw [hkt] at hu
          exact hut (Option.some.inj hu).symm
        · rw [hkeep k hk hku, h.owner]
  · intro u
    by_cases hut : u = t
    · subst hut
      exact (List.nodup_append.mp hnd).2.1
    · rw [hne u hut]
      exact h.nodup u

/-- Thread `t` waits for a lock that `u` holds. -/
def WaitsFor (mu : K → Option T) (wants : T → Option K) (t u : T) : Prop :=
  ∃ k, wants t = some k ∧ mu k = some u

/-- Along a chain of waiting threads the locks that they wait for ascend. -/
theorem not_circular [PartialOrder K] (h : Locks mu held) {wants : T → Option K}
    (hup : ∀ t k, wants t = some k → ∀ j ∈ held t, j < k) (t : T) :
    ¬ Relation.TransGen (WaitsFor mu wants) t t := by
  have key : ∀ {a b}, Relation.TransGen (WaitsFor mu wants) a b →
      ∃ j k, wants a = some j ∧ k ∈ held b ∧ j ≤ k := by
    intro a b hab
    induction hab with
    | single hw =>
      obtain ⟨k, hk, hmu⟩ := hw
      exact ⟨k, k, hk, (h.owner k _).mp hmu, le_rfl⟩
    | tail _ hw ih =>
      obtain ⟨j, k, hj, hk, hle⟩ := ih
      obtain ⟨l, hl, hmu⟩ := hw
      exact ⟨j, l, hj, (h.owner l _).mp hmu, hle.trans (hup _ l hl k hk).le⟩
  intro hcycle
  obtain ⟨j, k, hj, hk, hle⟩ := key hcycle
  exact (hup t j hj k hk).not_ge hle

end Locks

end Nsync.Lib
