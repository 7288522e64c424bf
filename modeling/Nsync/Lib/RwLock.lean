import Mathlib

/-!
# Reader/writer locks

What a reader/writer lock promises.  A state says in which mode each thread holds the
lock, and some modes are exclusive.  A thread may change its mode while it is alone.
-/

namespace Nsync.Lib.RwLock

variable {T M : Type}

/-- A thread that holds the lock in an exclusive mode is alone. -/
def Legal (excl : M → Prop) (h : T → Option M) : Prop :=
  ∀ t u m n, h t = some m → h u = some n → excl m → u = t

variable [DecidableEq T] {excl : M → Prop} {h h' : T → Option M}

inductive Step (excl : M → Prop) : (T → Option M) → (T → Option M) → Prop where
  | acquire {h : T → Option M} (t : T) (m : M) (ht : h t = none)
      (hfree : ∀ u n, h u = some n → ¬ excl m ∧ ¬ excl n) :
      Step excl h (Function.update h t (some m))
  | release {h : T → Option M} (t : T) (m : M) (ht : h t = some m) :
      Step excl h (Function.update h t none)
  | convert {h : T → Option M} (t : T) (m n : M) (ht : h t = some m)
      (halone : ∀ u, u ≠ t → h u = none) : Step excl h (Function.update h t (some n))

theorem Step.legal (hs : Step excl h h') (hl : Legal excl h) : Legal excl h' := by
  intro u w k l hu hw hk
  cases hs with
  | acquire t m ht hfree =>
      by_cases hut : u = t
      · by_cases hwt : w = t
        · rw [hut, hwt]
        · subst hut
          rw [Function.update_self] at hu
          rw [Function.update_of_ne hwt] at hw
          cases hu
          exact ((hfree w l hw).1 hk).elim
      · rw [Function.update_of_ne hut] at hu
        exact ((hfree u k hu).2 hk).elim
  | release t m ht =>
      have hut : u ≠ t := by
        rintro rfl
        simp at hu
      have hwt : w ≠ t := by
        rintro rfl
        simp at hw
      rw [Function.update_of_ne hut] at hu
      rw [Function.update_of_ne hwt] at hw
      exact hl u w k l hu hw hk
  | convert t m n ht halone =>
      have honly : ∀ v j, Function.update h t (some n) v = some j → v = t := by
        intro v j hv
        by_contra hne
        rw [Function.update_of_ne hne, halone v hne] at hv
        cases hv
      rw [honly u k hu, honly w l hw]

omit [DecidableEq T] in
theorem legal_initial : Legal excl (fun _ : T => none) := by
  intro t u m n ht
  cases ht

/-- In every run an exclusive holder is alone. -/
theorem legal_of_run (hr : Relation.ReflTransGen (Step excl) (fun _ => none) h) :
    Legal excl h := by
  induction hr with
  | refl => exact legal_initial
  | tail _ hs ih => exact hs.legal ih

/-- If one thread changes what it has and both states are legal, the change is one that
the lock promises.  All modes that are not exclusive are the same. -/
theorem step_of_legal (hone : ∀ m n, ¬ excl m → ¬ excl n → m = n) (hl : Legal excl h)
    (hl' : Legal excl h') {t : T} (hne : ∀ u, u ≠ t → h' u = h u) :
    h' = h ∨ Step excl h h' := by
  have hupd : h' = Function.update h t (h' t) := by
    funext u
    by_cases hu : u = t
    · rw [hu, Function.update_self]
    · rw [Function.update_of_ne hu, hne u hu]
  cases hb : h' t with
  | none =>
      cases ha : h t with
      | none =>
          apply Or.inl
          rw [hupd, hb, ← ha, Function.update_eq_self]
      | some m =>
          apply Or.inr
          rw [hupd, hb]
          exact .release t m ha
  | some n =>
      cases ha : h t with
      | none =>
          apply Or.inr
          rw [hupd, hb]
          refine .acquire t n ha fun u k hu => ?_
          have hut : u ≠ t := by
            rintro rfl
            rw [ha] at hu
            cases hu
          have hu' : h' u = some k := (hne u hut).trans hu
          exact ⟨fun hn => hut (hl' t u n k hb hu' hn), fun hk => hut (hl' u t k n hu' hb hk).symm⟩
      | some m =>
          by_cases hmn : m = n
          · apply Or.inl
            rw [hupd, hb, ← hmn, ← ha, Function.update_eq_self]
          · apply Or.inr
            rw [hupd, hb]
            refine .convert t m n ha fun u hu => ?_
            -- one of the two modes is exclusive, so `t` is alone before or after
            cases hk : h u with
            | none => rfl
            | some k =>
                have hk' : h' u = some k := (hne u hu).trans hk
                by_cases hm : excl m
                · exact (hu (hl t u m k ha hk hm)).elim
                · have hn : excl n := by
                    by_contra hn
                    exact hmn (hone m n hm hn)
                  exact (hu (hl' t u n k hb hk' hn)).elim

end Nsync.Lib.RwLock
