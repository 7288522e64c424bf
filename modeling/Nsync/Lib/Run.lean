import Mathlib.Logic.Basic
import Mathlib.Data.List.Basic

/-!
# Runs of a system of atomic steps

A system is a partial step function; a step carries a label that says who does
what.  A run takes any number of allowed steps from a start state.
-/

namespace Nsync.Lib

variable {α ι : Type}

/-- The states reached from `init` by steps that `P` allows. -/
inductive Reach (step : ι → α → Option α) (P : ι → α → Prop) (init : α) : α → Prop where
  | start : Reach step P init init
  | step {s s' : α} (i : ι) (h : Reach step P init s) (hP : P i s) (hs : step i s = some s') :
      Reach step P init s'

namespace Reach

variable {step : ι → α → Option α} {P Q : ι → α → Prop} {init s s' : α}

/-- What holds at the start and is kept by every allowed step holds in every
reached state. -/
theorem invariant {I : α → Prop} (h : Reach step P init s) (h0 : I init)
    (hstep : ∀ i a b, Reach step P init a → I a → P i a → step i a = some b → I b) : I s := by
  induction h with
  | start => exact h0
  | step i h hP hs ih => exact hstep i _ _ h ih hP hs

theorem mono (h : Reach step P init s) (hPQ : ∀ i a, P i a → Q i a) : Reach step Q init s := by
  induction h with
  | start => exact .start
  | step i _ hP hs ih => exact ih.step i (hPQ i _ hP) hs

theorem trans (h : Reach step P init s) (h' : Reach step P s s') : Reach step P init s' := by
  induction h' with
  | start => exact h
  | step i _ hP hs ih => exact ih.step i hP hs

end Reach

/-! ## History variables -/

section

variable {β : Type} {step : ι → α → Option α} {next : ι → α → α → β → β} {P : ι → α → Prop}
  {init s : α} {b₀ b : β}

/-- The system with a history variable, which each step updates from the states
before and after it. -/
def withHistory (step : ι → α → Option α) (next : ι → α → α → β → β) (i : ι) (p : α × β) :
    Option (α × β) :=
  (step i p.1).map fun s' => (s', next i p.1 s' p.2)

/-- The history variable stands in nobody's way. -/
theorem Reach.exists_history (next : ι → α → α → β → β) (b₀ : β) (h : Reach step P init s) :
    ∃ b, Reach (withHistory step next) (fun i p => P i p.1) (init, b₀) (s, b) := by
  induction h with
  | start => exact ⟨b₀, .start⟩
  | @step s s' i _ hP hs ih =>
      obtain ⟨b, hb⟩ := ih
      exact ⟨next i s s' b, hb.step i hP (by simp [withHistory, hs])⟩

theorem Reach.forget_history
    (h : Reach (withHistory step next) (fun i p => P i p.1) (init, b₀) (s, b)) :
    Reach step P init s := by
  have hfst : ∀ p, Reach (withHistory step next) (fun i p => P i p.1) (init, b₀) p →
      Reach step P init p.1 := by
    intro p hp
    induction hp with
    | start => exact .start
    | @step p p' i _ hP hs ih =>
        obtain ⟨s', hs', rfl⟩ := Option.map_eq_some_iff.mp hs
        exact ih.step i hP hs'
  exact hfst (s, b) h

end

/-! ## Executed runs -/

-- the numbers of threads in them
instance neZero_two : @NeZero ℕ Zero.ofOfNat0 2 :=
  @NeZero.mk ℕ Zero.ofOfNat0 2 (Nat.succ_ne_zero 1)
instance neZero_three : @NeZero ℕ Zero.ofOfNat0 3 :=
  @NeZero.mk ℕ Zero.ofOfNat0 3 (Nat.succ_ne_zero 2)

/-- Take the listed steps in order, as long as `p` allows them. -/
def exec (step : ι → α → Option α) (p : ι → α → Bool) : List ι → α → Option α
  | [], s => some s
  | i :: l, s => if p i s then (step i s).bind (exec step p l) else none

theorem Reach.of_exec {step : ι → α → Option α} {p : ι → α → Bool} {P : ι → α → Prop}
    (hp : ∀ i s, p i s = true → P i s) {l : List ι} {s s' : α}
    (h : exec step p l s = some s') : Reach step P s s' := by
  induction l generalizing s with
  | nil =>
      cases h
      exact .start
  | cons i l ih =>
      rw [exec] at h
      split at h
      · next hi =>
          obtain ⟨a, ha, hl⟩ := Option.bind_eq_some_iff.mp h
          exact (Reach.step i .start (hp i s hi) ha).trans (ih hl)
      · cases h

/-- A list of steps that ends in a state with the property `f`. -/
theorem Reach.exists_of_exec {step : ι → α → Option α} {p : ι → α → Bool} {P : ι → α → Prop}
    (hp : ∀ i s, p i s = true → P i s) {l : List ι} {s : α} {f : α → Bool}
    (h : ((exec step p l s).map f) = some true) : ∃ s', Reach step P s s' ∧ f s' = true := by
  obtain ⟨s', hs', hf⟩ := Option.map_eq_some_iff.mp h
  exact ⟨s', .of_exec hp hs', hf⟩

theorem Reach.exists_of_exec_all (step : ι → α → Option α) (s : α) (l : List ι) (f : α → Bool)
    (h : ((exec step (fun _ _ => true) l s).map f) = some true) :
    ∃ s', Reach step (fun _ _ => True) s s' ∧ f s' = true :=
  Reach.exists_of_exec (fun _ _ _ => trivial) h

end Nsync.Lib
