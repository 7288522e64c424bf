import Mathlib.Logic.Relation
import Mathlib.Order.Basic

/-!
# Forests given by parents

A function `parent` to optional elements makes its domain a forest, if it has no
cycles.  `Below parent a b` says that `b` is `a` or one of its descendants.  No cycles
are ruled out by an order in which a parent is smaller than its children.
-/

namespace Nsync.Lib

variable {α : Type*}

/-- Following parents from `b` leads to `a`. -/
def Below (parent : α → Option α) (a b : α) : Prop :=
  Relation.ReflTransGen (fun x y => parent y = some x) a b

namespace Below

variable {parent parent' : α → Option α} {a b c x : α}

@[refl] theorem refl : Below parent a a := Relation.ReflTransGen.refl

theorem trans (h : Below parent a b) (h' : Below parent b c) : Below parent a c :=
  Relation.ReflTransGen.trans h h'

theorem child (h : Below parent a b) (hc : parent c = some b) : Below parent a c :=
  Relation.ReflTransGen.tail h hc

theorem of_parent (h : parent b = some a) : Below parent a b := refl.child h

theorem eq_or_parent (h : Below parent a b) : b = a ∨ ∃ p, parent b = some p ∧ Below parent a p := by
  rcases Relation.ReflTransGen.cases_tail h with heq | ⟨p, hp, hb⟩
  · exact Or.inl heq
  · exact Or.inr ⟨p, hb, hp⟩

/-- The first step of the way down. -/
theorem eq_or_child (h : Below parent a b) : b = a ∨ ∃ c, parent c = some a ∧ Below parent c b := by
  rcases Relation.ReflTransGen.cases_head h with heq | ⟨c, hc, hb⟩
  · exact Or.inl heq.symm
  · exact Or.inr ⟨c, hc, hb⟩

/-- Two elements above a third are one above the other. -/
theorem total (h : Below parent a x) (h' : Below parent b x) :
    Below parent a b ∨ Below parent b a := by
  have hu : Relator.RightUnique (Function.swap fun x y : α => parent y = some x) := by
    intro y u v hy hv
    exact Option.some.inj (Eq.trans (Eq.symm hy) hv)
  rcases Relation.ReflTransGen.total_of_right_unique hu h.swap h'.swap with hab | hba
  · exact Or.inr hab.swap
  · exact Or.inl hba.swap

theorem mono (hp : ∀ y p, parent' y = some p → parent y = some p)
    (h : Below parent' a b) : Below parent a b := by
  induction h with
  | refl => exact refl
  | tail _ hbc ih => exact ih.child (hp _ _ hbc)

/-- What is below `a` does not depend on the parents of other elements, if these are
only forgotten. -/
theorem iff_of_kept (hp : ∀ y p, parent' y = some p → parent y = some p)
    (hk : ∀ y p, Below parent a p → parent y = some p → parent' y = some p) :
    Below parent' a b ↔ Below parent a b := by
  refine ⟨mono hp, fun h => ?_⟩
  induction h with
  | refl => exact refl
  | tail hab hbc ih => exact ih.child (hk _ _ hab hbc)

section

variable [PartialOrder α]

theorem le (ho : ∀ y p, parent y = some p → p < y) (h : Below parent a b) : a ≤ b := by
  induction h with
  | refl => exact le_rfl
  | tail _ hbc ih => exact ih.trans (ho _ _ hbc).le

theorem not_of_child (ho : ∀ y p, parent y = some p → p < y) (hb : parent b = some a) :
    ¬ Below parent b a :=
  fun h => (ho b a hb).not_ge (h.le ho)

/-- The descendants of two children of one parent are different. -/
theorem siblings (ho : ∀ y p, parent y = some p → p < y) {p : α} (ha : parent a = some p)
    (hb : parent b = some p) (hax : Below parent a x) (hbx : Below parent b x) : a = b := by
  have key : ∀ {u v : α}, parent u = some p → parent v = some p → Below parent u v → u = v := by
    intro u v hu hv h
    rcases h.eq_or_parent with heq | ⟨q, hq, huq⟩
    · exact heq.symm
    · rw [hv] at hq
      cases hq
      exact (not_of_child ho hu huq).elim
  rcases hax.total hbx with h | h
  · exact key ha hb h
  · exact (key hb ha h).symm

end

end Below

end Nsync.Lib
