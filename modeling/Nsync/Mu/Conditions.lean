import Nsync.Lib.Segments
import Nsync.Mu.Protocol

/-!
# Neighbours with the same condition

The `same_condition` links cut every waiter list into rings of neighbours whose
conditions are true at the same time.  The queue operations keep it so, and a
scan that skips a ring skips only conditions it has just found false.
-/

namespace Nsync.Mu

open Nsync.Lib

variable {T σ : Type}

/-- Both waiters have a condition, and the two are true at the same time. -/
def SameTruth (E : Env σ) (C : WaitCondition → Prop) (wtr : T → Waiter) (x y : T) : Prop :=
  ∃ c d, (wtr x).cond = some c ∧ (wtr y).cond = some d ∧
    (EqSound E C → ∀ s, c.holds E s = d.holds E s)

section

variable {E : Env σ} {C : WaitCondition → Prop} {wtr wtr' : T → Waiter} {x y z : T}

theorem SameTruth.trans (hxy : SameTruth E C wtr x y) (hyz : SameTruth E C wtr y z) :
    SameTruth E C wtr x z := by
  obtain ⟨c, d, hc, hd, hcd⟩ := hxy
  obtain ⟨d', e, hd', he, hde⟩ := hyz
  obtain rfl : d = d' := Option.some.inj (hd.symm.trans hd')
  exact ⟨c, e, hc, he, fun hs s => (hcd hs s).trans (hde hs s)⟩

theorem SameTruth.congr (hxy : SameTruth E C wtr x y) (hx : (wtr' x).cond = (wtr x).cond)
    (hy : (wtr' y).cond = (wtr y).cond) : SameTruth E C wtr' x y := by
  obtain ⟨c, d, hc, hd, hcd⟩ := hxy
  exact ⟨c, d, hx.trans hc, hy.trans hd, hcd⟩

theorem SameTruth.of_eq (hC : ∀ x c, (wtr x).cond = some c → C c)
    (h : waitConditionEq E (wtr x).cond (wtr y).cond = true) : SameTruth E C wtr x y := by
  cases hx : (wtr x).cond with
  | none => simp [hx, waitConditionEq] at h
  | some c =>
      cases hy : (wtr y).cond with
      | none => simp [hx, hy, waitConditionEq] at h
      | some d =>
          rw [hx, hy] at h
          exact ⟨c, d, hx, hy, fun hs => hs c d (hC x c hx) (hC y d hy) h⟩

end

/-! ## Positions in a list -/

section

variable [DecidableEq T] {l l₁ l₂ : List T} {x y : T}

theorem dllNext_append (hx : x ∉ l₁) : dllNext (l₁ ++ x :: l₂) x = l₂.head? := by
  induction l₁ with
  | nil => simp [dllNext]
  | cons a l ih =>
      rw [List.mem_cons, not_or] at hx
      rw [List.cons_append, dllNext, if_neg (Ne.symm hx.1), ih hx.2]

theorem dllPrev_cons (hx : x ≠ y) (hl : x ∉ l) : dllPrev (y :: (l ++ x :: l₂)) x =
    (y :: l).getLast? := by
  induction l generalizing y with
  | nil => simp [dllPrev]
  | cons a l ih =>
      rw [List.mem_cons, not_or] at hl
      rw [List.cons_append, dllPrev, if_neg (Ne.symm hl.1), ih hl.1 hl.2, List.getLast?_cons_cons]

theorem dllPrev_head (hx : x ∉ l) : dllPrev (x :: l) x = none := by
  have key : ∀ (k : List T) (a : T), x ∉ k → dllPrev (a :: k) x = none := by
    intro k
    induction k with
    | nil => intro a _; rfl
    | cons b k ih =>
        intro a hk
        rw [List.mem_cons, not_or] at hk
        rw [dllPrev, if_neg (Ne.symm hk.1), ih b hk.2]
  exact key l x hx

theorem linkPrev_append (h₁ : x ∉ l₁) (hne : l₁ ≠ []) :
    linkPrev (l₁ ++ x :: l₂) x = l₁.getLast? := by
  cases l₁ with
  | nil => exact (hne rfl).elim
  | cons a l =>
      rw [List.mem_cons, not_or] at h₁
      rw [linkPrev, List.cons_append, dllPrev_cons h₁.1 h₁.2, List.getLast?_cons, Option.some_or]

theorem linkPrev_head (h₂ : x ∉ l₂) : linkPrev (x :: l₂) x = (x :: l₂).getLast? := by
  rw [linkPrev, dllPrev_head h₂, Option.none_or]

end

/-! ## Keeping the rings -/

section

variable [DecidableEq T] {E : Env σ} {C : WaitCondition → Prop} {wtr : T → Waiter} {h : Links T}
  {l k : List T} {e p : T}

/-- Two heaps of links agree outside a list. -/
def Outside (h h' : Links T) (l : List T) : Prop :=
  ∀ x, x ∉ l → h'.next x = h.next x ∧ h'.prev x = h.prev x

omit [DecidableEq T] in
theorem Segmented.of_outside {h' : Links T} {R R' : T → T → Prop} (hs : Segmented h R l)
    (ho : Outside h h' k) (hd : ∀ x ∈ l, x ∉ k) (hR : ∀ x ∈ l, ∀ y ∈ l, R x y → R' x y) :
    Segmented h' R' l :=
  hs.congr (fun x hx => (ho x (hd x hx)).1) (fun x hx => (ho x (hd x hx)).2) hR

omit [DecidableEq T] in
/-- A list whose links and conditions are left alone stays cut into rings. -/
theorem Segmented.keep {h' : Links T} {wtr' : T → Waiter} (hs : Segmented h (SameTruth E C wtr) l)
    (ho : Outside h h' k) (hd : ∀ x ∈ l, x ∉ k) (hc : ∀ x ∈ l, (wtr' x).cond = (wtr x).cond) :
    Segmented h' (SameTruth E C wtr') l :=
  Segmented.of_outside hs ho hd fun x hx y hy hxy => hxy.congr (hc x hx) (hc y hy)

/-- A waiter alone in its ring leaves two neighbours to be merged, if it has two. -/
theorem removeSameCondition_alone {l₁ l₂ : List T} (hnd : (l₁ ++ e :: l₂).Nodup)
    (hne : h.next e = e) : removeSameCondition E wtr h (l₁ ++ e :: l₂) e =
      maybeMergeConditions E wtr h l₁.getLast? l₂.head? := by
  obtain ⟨-, hnd₂, hd⟩ := List.nodup_append.mp hnd
  have he₁ : e ∉ l₁ := fun hm => hd e hm e (by simp) rfl
  have he₂ : e ∉ l₂ := (List.nodup_cons.mp hnd₂).1
  have herase : (l₁ ++ e :: l₂).erase e = l₁ ++ l₂ := by
    rw [List.erase_append_right _ he₁, List.erase_cons_head]
  rw [removeSameCondition]
  simp only [herase, hne, ne_eq, not_true_eq_false, if_false]
  rcases eq_or_ne l₁ [] with rfl | hne₁
  · -- the first waiter: before it in the circle stands the last one
    have hlast : l₂ ≠ [] → linkPrev (e :: l₂) e = l₂.getLast? := by
      intro hl₂
      rw [linkPrev_head he₂, List.getLast?_cons_of_ne_nil hl₂]
    by_cases hl₂ : l₂ = []
    · simp [hl₂, maybeMergeConditions]
    · simp [hl₂, hlast hl₂, maybeMergeConditions]
  rw [linkPrev_append he₁ hne₁]
  rcases eq_or_ne l₂ [] with rfl | hne₂
  · -- the last waiter: the one before it is the last one now
    cases hp : l₁.getLast? <;> simp [hne₁, hp, maybeMergeConditions]
  · have hlast : l₁.getLast? ≠ (l₁ ++ l₂).getLast? := by
      obtain ⟨b, hb⟩ := Option.isSome_iff_exists.mp (List.getLast?_isSome.mpr hne₁)
      rw [List.getLast?_append_of_ne_nil _ hne₂, hb]
      intro hl₂
      exact hd b (List.mem_of_getLast? hb) b (by simp [List.mem_of_getLast? hl₂.symm]) rfl
    have hnext : linkNext (l₁ ++ e :: l₂) e = l₂.head? := by
      rw [linkNext, dllNext_append he₁]
      obtain ⟨n, hn⟩ := Option.isSome_iff_exists.mp (List.isSome_head?.mpr hne₂)
      rw [hn, Option.some_or]
    rw [if_neg (by simp [hne₁]), if_pos hlast, hnext]

/-- A waiter with neighbours in its ring is taken out of it. -/
theorem removeSameCondition_linked (hmem : h.next e ∈ l) (hne : h.next e ≠ e) :
    removeSameCondition E wtr h l e = h.unlink e := by
  have hrest : l.erase e ≠ [] := List.ne_nil_of_mem ((List.mem_erase_of_ne hne).mpr hmem)
  rw [removeSameCondition]
  simp only [hrest, hne, ne_eq, not_false_eq_true, if_true, if_false]

section

variable {R : T → T → Prop} (htrans : ∀ x y z, R x y → R y z → R x z)
  (heq : ∀ x y, waitConditionEq E (wtr x).cond (wtr y).cond = true → R x y)

include htrans heq

theorem rings_merge (hl : Segmented h R l) (hk : Segmented h R k) (hnd : (l ++ k).Nodup) :
    Segmented (maybeMergeConditions E wtr h l.getLast? k.head?) R (l ++ k) ∧
      Outside h (maybeMergeConditions E wtr h l.getLast? k.head?) (l ++ k) := by
  cases hp : l.getLast? with
  | none => exact ⟨hl.append hk, fun _ _ => ⟨rfl, rfl⟩⟩
  | some p =>
      cases hn : k.head? with
      | none => exact ⟨hl.append hk, fun _ _ => ⟨rfl, rfl⟩⟩
      | some n =>
          rw [maybeMergeConditions]
          split
          · next hpn =>
              refine ⟨hl.splice htrans hk hnd hp hn (heq p n hpn), fun x hx => ?_⟩
              rw [List.mem_append, not_or] at hx
              have hpl := List.mem_of_getLast? hp
              have hnk := List.mem_of_mem_head? hn
              obtain ⟨l₁, s, l₂, rfl, hps, hrs, -⟩ := hl.exists_segment hpl
              obtain ⟨k₁, s', k₂, rfl, hns, hrs', -⟩ := hk.exists_segment hnk
              have h1 : x ≠ h.prev n := by
                rintro rfl
                exact hx.2 (by simp [hrs'.prev_mem hns])
              have h2 : x ≠ p := by
                rintro rfl
                exact hx.1 hpl
              have h3 : x ≠ h.next p := by
                rintro rfl
                exact hx.1 (by simp [hrs.next_mem hps])
              have h4 : x ≠ n := by
                rintro rfl
                exact hx.2 hnk
              exact ⟨by rw [Links.next_spliceAfter, if_neg h1, if_neg h2],
                by rw [Links.prev_spliceAfter, if_neg h3, if_neg h4]⟩
          · exact ⟨hl.append hk, fun _ _ => ⟨rfl, rfl⟩⟩

/-- Removing a waiter from its list. -/
theorem rings_remove (hl : Segmented h R l) (hnd : l.Nodup) (he : e ∈ l) :
    Segmented (removeSameCondition E wtr h l e) R (l.erase e) ∧
      Outside h (removeSameCondition E wtr h l e) l ∧
      (removeSameCondition E wtr h l e).next e = e ∧
      (removeSameCondition E wtr h l e).prev e = e := by
  by_cases hne : h.next e = e
  · -- `e` is alone in its ring
    have hprev : h.prev e = e := by
      obtain ⟨k₁, s, k₂, hk, hes, hr, -⟩ := hl.exists_segment he
      have hnds : s.Nodup := by
        rw [hk] at hnd
        exact hnd.sublist ((List.sublist_append_right k₁ s).trans (List.sublist_append_left _ k₂))
      rw [hr.eq_singleton hnds hes hne] at hr
      exact (Links.ring_singleton.mp hr).2
    obtain ⟨l₁, l₂, rfl, hs₁, hs₂⟩ := hl.split_alone hnd he hne
    have he₁ : e ∉ l₁ := fun hm => (List.nodup_append.mp hnd).2.2 e hm e (by simp) rfl
    have he₂ : e ∉ l₂ := (List.nodup_cons.mp (List.nodup_append.mp hnd).2.1).1
    have herase : (l₁ ++ e :: l₂).erase e = l₁ ++ l₂ := by
      rw [List.erase_append_right _ he₁, List.erase_cons_head]
    have hnd' : (l₁ ++ l₂).Nodup := herase ▸ hnd.erase e
    obtain ⟨hseg, hout⟩ := rings_merge htrans heq hs₁ hs₂ hnd'
    have hoe := hout e (by simp [he₁, he₂])
    rw [removeSameCondition_alone hnd hne, herase]
    refine ⟨hseg, fun x hx => hout x ?_, hoe.1.trans hne, hoe.2.trans hprev⟩
    simp only [List.mem_append, List.mem_cons, not_or] at hx ⊢
    exact ⟨hx.1, hx.2.2⟩
  · -- `e` has neighbours in its ring
    obtain ⟨k₁, s, k₂, hk, hes, hr, -⟩ := hl.exists_segment he
    have hmem : h.next e ∈ l := by
      rw [hk]
      simp [hr.next_mem hes]
    have hmem' : h.prev e ∈ l := by
      rw [hk]
      simp [hr.prev_mem hes]
    rw [removeSameCondition_linked hmem hne]
    refine ⟨hl.unlink hnd he hne, fun x hx => ?_, ?_, ?_⟩
    · have h1 : x ≠ e := by rintro rfl; exact hx he
      have h2 : x ≠ h.prev e := by rintro rfl; exact hx hmem'
      have h3 : x ≠ h.next e := by rintro rfl; exact hx hmem
      exact ⟨by rw [Links.next_unlink hne, if_neg h1, if_neg h2],
        by rw [Links.prev_unlink, if_neg h1, if_neg h3]⟩
    · rw [Links.next_unlink hne, if_pos rfl]
    · rw [Links.prev_unlink, if_pos rfl]

end

theorem segmented_merge (hC : ∀ x c, (wtr x).cond = some c → C c)
    (hl : Segmented h (SameTruth E C wtr) l) (hk : Segmented h (SameTruth E C wtr) k)
    (hnd : (l ++ k).Nodup) :
    Segmented (maybeMergeConditions E wtr h l.getLast? k.head?) (SameTruth E C wtr) (l ++ k) ∧
      Outside h (maybeMergeConditions E wtr h l.getLast? k.head?) (l ++ k) :=
  rings_merge (fun _ _ _ => SameTruth.trans) (fun _ _ => SameTruth.of_eq hC) hl hk hnd

/-- Removing a waiter from its list. -/
theorem segmented_remove (hC : ∀ x c, (wtr x).cond = some c → C c)
    (hl : Segmented h (SameTruth E C wtr) l) (hnd : l.Nodup) (he : e ∈ l) :
    Segmented (removeSameCondition E wtr h l e) (SameTruth E C wtr) (l.erase e) ∧
      Outside h (removeSameCondition E wtr h l e) l ∧
      (removeSameCondition E wtr h l e).next e = e ∧
      (removeSameCondition E wtr h l e).prev e = e :=
  rings_remove (fun _ _ _ => SameTruth.trans) (fun _ _ => SameTruth.of_eq hC) hl hnd he

/-- What a scan skips has the same truth as the element it skips from. -/
theorem skipPastSameCondition_spec {l₁ l₂ : List T}
    (hl : Segmented h (SameTruth E C wtr) (l₁ ++ p :: l₂)) (hnd : (l₁ ++ p :: l₂).Nodup) :
    ∃ k₁ k₂, l₂ = k₁ ++ k₂ ∧ skipPastSameCondition h (l₁ ++ p :: l₂) p = k₂.head? ∧
      ∀ y ∈ k₁, SameTruth E C wtr p y := by
  have hp₁ : p ∉ l₁ := fun hm => (List.nodup_append.mp hnd).2.2 p hm p (by simp) rfl
  -- whatever the links say, the next element is a correct choice
  have hnext : skipPastSameCondition h (l₁ ++ p :: l₂) p = dllNext (l₁ ++ p :: l₂) p →
      ∃ k₁ k₂, l₂ = k₁ ++ k₂ ∧ skipPastSameCondition h (l₁ ++ p :: l₂) p = k₂.head? ∧
        ∀ y ∈ k₁, SameTruth E C wtr p y := by
    intro heq
    exact ⟨[], l₂, rfl, by rw [heq, dllNext_append hp₁], by simp⟩
  obtain ⟨A, s, B, hsplit, hps, hr, hpw, -, -⟩ := hl.exists_segment (e := p) (by simp)
  obtain ⟨s₁, s₂, rfl⟩ := List.append_of_mem hps
  have hnd' := hnd
  rw [hsplit] at hnd'
  have hpA : p ∉ A ++ s₁ := by
    have : (A ++ s₁ ++ p :: (s₂ ++ B)).Nodup := by simpa [List.append_assoc] using hnd'
    exact fun hm => (List.nodup_append.mp this).2.2 p hm p (by simp) rfl
  have hdec : l₁ ++ p :: l₂ = (A ++ s₁) ++ p :: (s₂ ++ B) := by
    rw [hsplit]
    simp [List.append_assoc]
  have hp₂ : p ∉ l₂ := (List.nodup_cons.mp (List.nodup_append.mp hnd).2.1).1
  obtain ⟨rfl, -, rfl⟩ := (List.append_cons_inj_of_notMem hp₁ hp₂).mp hdec
  have hprev := hr.neighbours.2
  cases s₁ with
  | cons b s₁ =>
      -- `p` is not the first of its ring
      apply hnext
      have hlink : linkPrev (A ++ b :: s₁ ++ p :: (s₂ ++ B)) p = some (h.prev p) := by
        rw [linkPrev_append hpA (by simp), hprev, List.getLast?_append_of_ne_nil _ (by simp),
          List.getLast?_append_of_ne_nil _ (by simp)]
      simp only [skipPastSameCondition, hlink, ne_eq, not_true_eq_false, and_false, if_false]
  | nil =>
      simp only [List.nil_append, List.append_nil] at hprev hpw hsplit hnd' hpA hnext ⊢
      rcases List.eq_nil_or_concat s₂ with rfl | ⟨s₂, q, rfl⟩
      · apply hnext
        have : h.prev p = p := by simpa using hprev
        simp [skipPastSameCondition, this]
      · have hq : h.prev p = q := by simpa [List.getLast?_cons] using hprev
        by_cases hlast : some q = linkPrev (A ++ p :: ((s₂.concat q) ++ B)) p
        · apply hnext
          rw [skipPastSameCondition]
          simp only [hq, hlast, ne_eq, not_true_eq_false, and_false, if_false]
        · have hqp : q ≠ p := by
            rintro rfl
            simp [List.nodup_append, List.nodup_cons] at hnd
          refine ⟨s₂.concat q, B, rfl, ?_, ?_⟩
          · rw [skipPastSameCondition]
            simp only [hq, hqp, hlast, ne_eq, not_false_eq_true, and_self, if_true]
            have hqn : q ∉ A ++ p :: s₂ := by
              intro hm
              have : (A ++ p :: s₂ ++ q :: B).Nodup := by
                simpa [List.concat_eq_append, List.append_assoc] using hnd
              exact (List.nodup_append.mp this).2.2 q hm q (by simp) rfl
            have hform : A ++ p :: (s₂.concat q ++ B) = (A ++ p :: s₂) ++ q :: B := by
              simp [List.concat_eq_append, List.append_assoc]
            rw [hform, dllNext_append hqn]
          · intro y hy
            exact (List.pairwise_cons.mp hpw).1 y hy

end

end Nsync.Mu
