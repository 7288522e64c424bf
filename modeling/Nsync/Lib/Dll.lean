import Nsync.Lib.Links

/-!
# Lists known by their last element

A circular doubly linked list is known by a pointer to its last element, which
is null for the empty list.  The operations work on the links; each of them has
its effect on the sequence that the list denotes.
-/

namespace Nsync.Lib

variable {α : Type*} [DecidableEq α]

namespace Links

/-! ## Operations -/

/-- Take `e` out of the list. -/
def removeFrom (h : Links α) (list : Option α) (e : α) : Links α × Option α :=
  (h.unlink e,
    if list = some e then if h.prev e = e then none else some (h.prev e) else list)

/-- Put the ring that starts at `e` in front of the list. -/
def makeFirst (h : Links α) (list : Option α) (e : α) : Links α × Option α :=
  match list with
  | none => (h, some (h.prev e))
  | some l => (h.spliceAfter l e, some l)

/-- Put the ring that ends at `e` behind the list. -/
def makeLast (h : Links α) (list : Option α) (e : α) : Links α × Option α :=
  ((h.makeFirst list (h.next e)).1, some e)

def firstOf (h : Links α) (list : Option α) : Option α := list.map h.next

/-- The element after `e`, if `e` is not the last one. -/
def nextIn (h : Links α) (list : Option α) (e : α) : Option α :=
  if list = some e then none else some (h.next e)

/-- The element before `e`, if `e` is not the first one. -/
def prevIn (h : Links α) (list : Option α) (e : α) : Option α :=
  list.bind fun l => if e = h.next l then none else some (h.prev e)

/-- The elements that a loop visits which starts at `p` and goes on by `f` until it
comes to null, if it gets there in the given number of rounds. -/
def visit (f : α → Option α) : ℕ → Option α → Option (List α)
  | _, none => some []
  | 0, some _ => none
  | k + 1, some a => (visit f k (f a)).map (a :: ·)

/-- An element in no list. -/
def Alone (h : Links α) (e : α) : Prop := h.next e = e ∧ h.prev e = e

instance (h : Links α) (e : α) : Decidable (h.Alone e) := inferInstanceAs (Decidable (_ ∧ _))

end Links

open Links

/-! ## What a list denotes -/

/-- Following the links of the list visits `l`. -/
structure Denotes (h : Links α) (list : Option α) (l : List α) : Prop where
  last : list = l.getLast?
  ring : l ≠ [] → h.Ring l
  nodup : l.Nodup

namespace Denotes

variable {h h' : Links α} {list : Option α} {l l₁ l₂ : List α} {e x : α}

omit [DecidableEq α] in
theorem empty (h : Links α) : Denotes h none [] := ⟨rfl, fun hne => (hne rfl).elim, List.nodup_nil⟩

omit [DecidableEq α] in
theorem congr (hd : Denotes h list l) (hn : ∀ x ∈ l, h'.next x = h.next x)
    (hp : ∀ x ∈ l, h'.prev x = h.prev x) : Denotes h' list l :=
  ⟨hd.last, fun hne => (hd.ring hne).congr hn hp, hd.nodup⟩

omit [DecidableEq α] in
theorem eq_none (hd : Denotes h list l) : list = none ↔ l = [] := by
  rw [hd.last, List.getLast?_eq_none_iff]

omit [DecidableEq α] in
theorem firstOf (hd : Denotes h list l) : h.firstOf list = l.head? := by
  cases l with
  | nil => rw [hd.last]; rfl
  | cons a l =>
      obtain ⟨b, hb⟩ := Option.isSome_iff_exists.mp (List.getLast?_isSome.mpr (List.cons_ne_nil a l))
      have hclosed := (hd.ring (List.cons_ne_nil a l)).closed a rfl b hb
      rw [hd.last, hb, Links.firstOf, Option.map_some, hclosed.1, List.head?_cons]

theorem nextIn (hd : Denotes h list (l₁ ++ e :: l₂)) : h.nextIn list e = l₂.head? := by
  have hr := hd.ring (by simp)
  have hnext := hr.neighbours.1
  have hlast := hd.last
  cases l₂ with
  | nil =>
      rw [List.getLast?_append_of_ne_nil _ (by simp)] at hlast
      have hl : list = some e := hlast
      rw [Links.nextIn, hl, if_pos rfl, List.head?_nil]
  | cons b l₂ =>
      have hne : list ≠ some e := by
        intro heq
        rw [List.getLast?_append_of_ne_nil _ (by simp), List.getLast?_cons_cons, heq] at hlast
        have hmem := List.mem_of_getLast? hlast.symm
        exact (List.nodup_cons.mp (List.nodup_append.mp hd.nodup).2.1).1 hmem
      rw [Links.nextIn, if_neg hne, hnext]
      rfl

/-! ## Removal -/

theorem unlink_alone (ha : h.Alone e) : h.unlink e = h := by
  obtain ⟨hn, hp⟩ := ha
  ext x
  · simp only [Links.unlink, setNext, setPrev, Function.update_apply, hn, hp]
    split_ifs with hx
    · rw [hx, hn]
    · rfl
  · simp only [Links.unlink, setNext, setPrev, Function.update_apply, hn, hp]
    split_ifs with hx
    · rw [hx, hp]
    · rfl

theorem alone_unlink : (h.unlink e).Alone e := by
  constructor <;> simp [Links.unlink, setNext, setPrev]

/-- The links outside the list stay. -/
theorem unlink_outside (hd : Denotes h list l) (he : e ∈ l) (hx : x ∉ l) :
    (h.unlink e).next x = h.next x ∧ (h.unlink e).prev x = h.prev x := by
  have hr := hd.ring (List.ne_nil_of_mem he)
  have hxe : x ≠ e := by rintro rfl; exact hx he
  have hxp : x ≠ h.prev e := by rintro rfl; exact hx (hr.prev_mem he)
  have hxn : x ≠ h.next e := by rintro rfl; exact hx (hr.next_mem he)
  by_cases hne : h.next e = e
  · have hsingle := hr.eq_singleton hd.nodup he hne
    rw [hsingle] at hr
    rw [unlink_alone (ring_singleton.mp hr)]
    exact ⟨rfl, rfl⟩
  · exact ⟨by rw [next_unlink hne, if_neg hxe, if_neg hxp],
      by rw [prev_unlink, if_neg hxe, if_neg hxn]⟩

theorem removeFrom (hd : Denotes h list l) (he : e ∈ l) :
    Denotes (h.removeFrom list e).1 (h.removeFrom list e).2 (l.erase e) := by
  have hr := hd.ring (List.ne_nil_of_mem he)
  have hnd := hd.nodup
  by_cases hne : h.next e = e
  · obtain rfl := hr.eq_singleton hnd he hne
    have hp : h.prev e = e := (ring_singleton.mp hr).2
    have hlist : list = some e := hd.last
    simp only [Links.removeFrom, hlist, hp, if_true, List.erase_cons_head]
    exact empty _
  · refine ⟨?_, fun _ => hr.unlink hnd he hne, hnd.erase e⟩
    obtain ⟨l₁, l₂, rfl⟩ := List.append_of_mem he
    obtain ⟨-, hnd₂, hdisj⟩ := List.nodup_append.mp hnd
    have he₁ : e ∉ l₁ := fun hm => hdisj e hm e (by simp) rfl
    have he₂ : e ∉ l₂ := (List.nodup_cons.mp hnd₂).1
    have hprev := hr.neighbours.2
    have hpe : h.prev e ≠ e := by
      intro hpe
      apply hne
      rw [hpe, List.getLast?_append] at hprev
      rcases List.eq_nil_or_concat l₁ with rfl | ⟨l₁, a, rfl⟩
      · rcases List.eq_nil_or_concat l₂ with rfl | ⟨l₂, b, rfl⟩
        · simpa using hr.neighbours.1
        · have : e = b := by simpa [List.getLast?_cons] using hprev
          exact (he₂ (by simp [this])).elim
      · have : e = a := by simpa using hprev
        exact (he₁ (by simp [this])).elim
    rw [List.erase_append_right _ he₁, List.erase_cons_head]
    have hlast := hd.last
    cases l₂ with
    | nil =>
        rw [List.getLast?_append_of_ne_nil _ (by simp)] at hlast
        have hl : list = some e := hlast
        rw [Links.removeFrom, hl, if_pos rfl, if_neg hpe, hprev, List.append_nil, List.getLast?_append]
        rcases List.eq_nil_or_concat l₁ with rfl | ⟨l₁, a, rfl⟩
        · exact (hpe (by simpa using hprev)).elim
        · simp
    | cons b l₂ =>
        have hl : list ≠ some e := by
          intro heq
          rw [List.getLast?_append_of_ne_nil _ (by simp), List.getLast?_cons_cons, heq] at hlast
          exact he₂ (List.mem_of_getLast? hlast.symm)
        rw [Links.removeFrom, if_neg hl, hlast]
        simp [List.getLast?_append, List.getLast?_cons]

/-! ## Insertion of one element -/

theorem makeLast (hd : Denotes h list l) (ha : h.Alone e) (he : e ∉ l) :
    Denotes (h.makeLast list e).1 (h.makeLast list e).2 (l ++ [e]) := by
  refine ⟨by simp [Links.makeLast], fun _ => ?_, ?_⟩
  · rw [Links.makeLast, ha.1]
    cases hl : list with
    | none =>
        rw [hd.eq_none.mp hl]
        exact ring_singleton.mpr ha
    | some p =>
        have hlast : l.getLast? = some p := hd.last.symm.trans hl
        have hne : l ≠ [] := by
          rintro rfl
          cases hlast
        refine (hd.ring hne).splice (ring_singleton.mpr ha) ?_ hlast rfl
        rw [List.nodup_append]
        exact ⟨hd.nodup, List.nodup_singleton e, fun a ha b hb => by
          rintro rfl
          exact he (by simpa [List.mem_singleton.mp hb] using ha)⟩
  · rw [List.nodup_append]
    exact ⟨hd.nodup, List.nodup_singleton e, fun a ha b hb => by
      rintro rfl
      exact he (by simpa [List.mem_singleton.mp hb] using ha)⟩

omit [DecidableEq α] in
/-- A ring may be entered anywhere. -/
theorem ring_comm (hr : h.Ring (l₁ ++ l₂)) : h.Ring (l₂ ++ l₁) := by
  rcases eq_or_ne l₁ [] with rfl | h₁
  · simpa using hr
  rcases eq_or_ne l₂ [] with rfl | h₂
  · simpa using hr
  obtain ⟨hc₁, hc₂, hmid⟩ := List.isChain_append.mp hr.chain
  have hclosed := hr.closed
  rw [List.head?_append_of_ne_nil _ h₁, List.getLast?_append_of_ne_nil _ h₂] at hclosed
  refine ⟨by simp [h₁], List.isChain_append.mpr ⟨hc₂, hc₁, fun b hb a ha => hclosed a ha b hb⟩, ?_⟩
  rw [List.head?_append_of_ne_nil _ h₂, List.getLast?_append_of_ne_nil _ h₁]
  exact fun b hb a ha => hmid a ha b hb

theorem makeFirst (hd : Denotes h list l) (ha : h.Alone e) (he : e ∉ l) :
    Denotes (h.makeFirst list e).1 (h.makeFirst list e).2 (e :: l) := by
  refine ⟨?_, fun _ => ?_, List.nodup_cons.mpr ⟨he, hd.nodup⟩⟩
  · cases hl : list with
    | none =>
        rw [hd.eq_none.mp hl, Links.makeFirst]
        simp [ha.2]
    | some p =>
        have hlast : l.getLast? = some p := hd.last.symm.trans hl
        simp [Links.makeFirst, List.getLast?_cons, hlast]
  · cases hl : list with
    | none =>
        rw [hd.eq_none.mp hl]
        exact ring_singleton.mpr ha
    | some p =>
        have hlast : l.getLast? = some p := hd.last.symm.trans hl
        have hne : l ≠ [] := by
          rintro rfl
          cases hlast
        have hnd : (l ++ [e]).Nodup := by
          rw [List.nodup_append_comm]
          exact List.nodup_cons.mpr ⟨he, hd.nodup⟩
        exact ring_comm ((hd.ring hne).splice (ring_singleton.mpr ha) hnd hlast rfl)

theorem makeFirst_outside (hd : Denotes h list l) (ha : h.Alone e) (hx : x ∉ l) (hxe : x ≠ e) :
    (h.makeFirst list e).1.next x = h.next x ∧ (h.makeFirst list e).1.prev x = h.prev x := by
  cases hl : list with
  | none => exact ⟨rfl, rfl⟩
  | some p =>
      have hlast : l.getLast? = some p := hd.last.symm.trans hl
      have hp : p ∈ l := List.mem_of_getLast? hlast
      have hxp : x ≠ p := by rintro rfl; exact hx hp
      have hxn : x ≠ h.next p := by
        rintro rfl
        exact hx ((hd.ring (List.ne_nil_of_mem hp)).next_mem hp)
      change (h.spliceAfter p e).next x = _ ∧ (h.spliceAfter p e).prev x = _
      rw [next_spliceAfter, prev_spliceAfter, ha.2, if_neg hxe, if_neg hxp, if_neg hxn, if_neg hxe]
      exact ⟨rfl, rfl⟩

theorem makeLast_outside (hd : Denotes h list l) (ha : h.Alone e) (hx : x ∉ l) (hxe : x ≠ e) :
    (h.makeLast list e).1.next x = h.next x ∧ (h.makeLast list e).1.prev x = h.prev x := by
  rw [Links.makeLast, ha.1]
  exact hd.makeFirst_outside ha hx hxe

/-! ## Insertion of a ring -/

/-- A ring put behind the element `p` of another one. -/
theorem ring_spliceAfter {k : List α} (hr : h.Ring (l₁ ++ e :: l₂)) (hk : h.Ring k)
    (hnd : (l₁ ++ e :: l₂ ++ k).Nodup) (hx : k.head? = some x) :
    (h.spliceAfter e x).Ring (l₁ ++ e :: (k ++ l₂)) := by
  have hrot : h.Ring (l₂ ++ (l₁ ++ [e])) := by
    have hr' : h.Ring ((l₁ ++ [e]) ++ l₂) := by simpa using hr
    exact ring_comm hr'
  have hperm : (l₂ ++ (l₁ ++ [e]) ++ k).Perm (l₁ ++ e :: l₂ ++ k) := by
    refine List.Perm.append_right k ?_
    simpa using (List.perm_append_comm : (l₂ ++ (l₁ ++ [e])).Perm ((l₁ ++ [e]) ++ l₂))
  have hsplice := hrot.splice hk (hperm.nodup_iff.mpr hnd) (p := e) (by simp) hx
  have hcomm : (h.spliceAfter e x).Ring ((l₁ ++ [e] ++ k) ++ l₂) :=
    ring_comm (by simpa using hsplice)
  simpa using hcomm

omit [DecidableEq α] in
theorem nodup_splice {k : List α} (hnd : (l₁ ++ l₂ ++ k).Nodup) : (l₁ ++ (k ++ l₂)).Nodup := by
  have hperm : (l₁ ++ (k ++ l₂)).Perm (l₁ ++ l₂ ++ k) := by
    rw [List.append_assoc]
    exact List.Perm.append_left l₁ List.perm_append_comm
  exact hperm.nodup_iff.mpr hnd

/-- A ring put behind an element that is not the last one. -/
theorem spliceAfter {k : List α} (hd : Denotes h list (l₁ ++ e :: l₂)) (hl₂ : l₂ ≠ [])
    (hk : h.Ring k) (hnd : (l₁ ++ e :: l₂ ++ k).Nodup) (hx : k.head? = some x) :
    Denotes (h.spliceAfter e x) list (l₁ ++ e :: (k ++ l₂)) := by
  refine ⟨?_, fun _ => ring_spliceAfter (hd.ring (by simp)) hk hnd hx, ?_⟩
  · rw [hd.last, List.getLast?_append_of_ne_nil _ (by simp), List.getLast?_cons_of_ne_nil hl₂,
      List.getLast?_append_of_ne_nil _ (by simp), List.getLast?_cons_of_ne_nil (by simp [hl₂]),
      List.getLast?_append_of_ne_nil _ hl₂]
  · have hnd' : ((l₁ ++ [e]) ++ l₂ ++ k).Nodup := by simpa using hnd
    simpa using nodup_splice hnd'

/-- A ring put behind the last element comes first. -/
theorem spliceAfter_last {k : List α} (hd : Denotes h (some e) l) (hk : h.Ring k)
    (hnd : (l ++ k).Nodup) (hx : k.head? = some x) :
    Denotes (h.spliceAfter e x) (some e) (k ++ l) := by
  have hne : l ≠ [] := by
    rintro rfl
    cases hd.last
  refine ⟨?_, fun _ => ring_comm ((hd.ring hne).splice hk hnd hd.last.symm hx), ?_⟩
  · rw [List.getLast?_append_of_ne_nil _ hne]
    exact hd.last
  · exact (List.perm_append_comm.nodup_iff).mp hnd

theorem makeFirst_ring {k : List α} (hd : Denotes h list l) (hk : h.Ring k)
    (hnd : (l ++ k).Nodup) (hx : k.head? = some x) :
    Denotes (h.makeFirst list x).1 (h.makeFirst list x).2 (k ++ l) := by
  cases hl : list with
  | none =>
      obtain rfl := hd.eq_none.mp hl
      obtain ⟨b, hb⟩ := Option.isSome_iff_exists.mp (List.getLast?_isSome.mpr hk.ne_nil)
      have hprev := (hk.closed x hx b hb).2
      rw [List.append_nil]
      exact ⟨by rw [hb, Links.makeFirst, hprev], fun _ => hk, hnd⟩
  | some p =>
      subst hl
      exact hd.spliceAfter_last hk hnd hx

theorem makeLast_ring {k : List α} (hd : Denotes h list l) (hk : h.Ring k)
    (hnd : (l ++ k).Nodup) (hx : k.getLast? = some x) :
    Denotes (h.makeLast list x).1 (h.makeLast list x).2 (l ++ k) := by
  obtain ⟨a, ha⟩ := Option.isSome_iff_exists.mp (List.isSome_head?.mpr hk.ne_nil)
  have hnext : h.next x = a := (hk.closed a ha x hx).1
  have hfirst := hd.makeFirst_ring hk hnd ha
  refine ⟨?_, fun _ => ?_, hnd⟩
  · rw [Links.makeLast, List.getLast?_append_of_ne_nil _ hk.ne_nil, hx]
  · rw [Links.makeLast, hnext]
    exact ring_comm (hfirst.ring (by simp [hk.ne_nil]))

/-- The links outside both rings stay. -/
theorem spliceAfter_outside {k : List α} (hr : h.Ring l) (hk : h.Ring k) (he : e ∈ l)
    {y : α} (hy : y ∈ k) (hx : x ∉ l) (hxk : x ∉ k) :
    (h.spliceAfter e y).next x = h.next x ∧ (h.spliceAfter e y).prev x = h.prev x := by
  have hxe : x ≠ e := by rintro rfl; exact hx he
  have hxn : x ≠ h.next e := by rintro rfl; exact hx (hr.next_mem he)
  have hxy : x ≠ y := by rintro rfl; exact hxk hy
  have hxp : x ≠ h.prev y := by rintro rfl; exact hxk (hk.prev_mem hy)
  rw [next_spliceAfter, prev_spliceAfter, if_neg hxe, if_neg hxn, if_neg hxy, if_neg hxp]
  exact ⟨rfl, rfl⟩

/-! ## Iteration -/

theorem prevIn (hd : Denotes h list (l₁ ++ e :: l₂)) : h.prevIn list e = l₁.getLast? := by
  have hr := hd.ring (by simp)
  have hfirst := hd.firstOf
  cases hl : list with
  | none => exact absurd (hd.eq_none.mp hl) (by simp)
  | some p =>
      rw [hl, Links.firstOf, Option.map_some] at hfirst
      rw [Links.prevIn, Option.bind_some]
      rcases List.eq_nil_or_concat l₁ with rfl | ⟨l₁, a, rfl⟩
      · rw [if_pos (by simpa using hfirst.symm)]
        rfl
      · have hne : e ≠ h.next p := by
          rintro rfl
          have hmem : h.next p ∈ l₁.concat a := by
            rw [List.head?_append_of_ne_nil _ (by simp)] at hfirst
            exact List.mem_of_mem_head? hfirst.symm
          exact (List.nodup_append.mp hd.nodup).2.2 _ hmem _ (by simp) rfl
        rw [if_neg hne, hr.neighbours.2]
        simp [List.getLast?_append, List.getLast?_cons]

theorem visit_next {n : ℕ} (hd : Denotes h list (l₁ ++ l₂)) (hn : l₂.length ≤ n) :
    visit (h.nextIn list) n l₂.head? = some l₂ := by
  induction l₂ generalizing l₁ n with
  | nil => cases n <;> rfl
  | cons a l₂ ih =>
      obtain ⟨n, rfl⟩ : ∃ m, n = m + 1 := ⟨n - 1, by simp at hn; omega⟩
      have hd' : Denotes h list ((l₁ ++ [a]) ++ l₂) := by simpa using hd
      have hih := ih hd' (Nat.le_of_succ_le_succ hn)
      rw [List.head?_cons, visit, hd.nextIn, hih]
      rfl

theorem visit_prev {n : ℕ} (hd : Denotes h list (l₁ ++ l₂)) (hn : l₁.length ≤ n) :
    visit (h.prevIn list) n l₁.getLast? = some l₁.reverse := by
  induction l₁ using List.reverseRecOn generalizing l₂ n with
  | nil => cases n <;> rfl
  | append_singleton l₁ a ih =>
      obtain ⟨n, rfl⟩ : ∃ m, n = m + 1 := ⟨n - 1, by simp at hn; omega⟩
      have hd' : Denotes h list (l₁ ++ a :: l₂) := by simpa using hd
      have hih := ih hd' (by simpa using hn)
      rw [List.getLast?_concat, visit, hd'.prevIn, hih]
      simp

omit [DecidableEq α] in
/-- The links of the elements of a list are inverse to each other. -/
theorem inverse (hd : Denotes h list l) (hx : x ∈ l) :
    h.prev (h.next x) = x ∧ h.next (h.prev x) = x := by
  have hr := hd.ring (List.ne_nil_of_mem hx)
  obtain ⟨l₁, l₂, rfl⟩ := List.append_of_mem hx
  -- Enter the ring at `x`, so that its neighbours are next to it in the list.
  have hrot : h.Ring (x :: (l₂ ++ l₁)) := by simpa using ring_comm hr
  cases hl : l₂ ++ l₁ with
  | nil =>
      rw [hl] at hrot
      obtain ⟨hn, hp⟩ := ring_singleton.mp hrot
      exact ⟨by rw [hn, hp], by rw [hp, hn]⟩
  | cons b k =>
      rw [hl] at hrot
      obtain ⟨c, hc⟩ := Option.isSome_iff_exists.mp (List.getLast?_isSome.mpr (List.cons_ne_nil b k))
      have hxb : h.Linked x b := (List.isChain_cons.mp hrot.chain).1 b rfl
      have hcx : h.Linked c x :=
        hrot.closed x rfl c (by rw [List.getLast?_cons_of_ne_nil (List.cons_ne_nil b k)]; exact hc)
      exact ⟨by rw [hxb.1, hxb.2], by rw [hcx.2, hcx.1]⟩

/-! ## Uniqueness -/

omit [DecidableEq α] in
theorem chain_unique {k : List α} (hl : l.IsChain h.Linked) (hk : k.IsChain h.Linked)
    (hndl : l.Nodup) (hndk : k.Nodup) (hhead : l.head? = k.head?)
    (hlast : l.getLast? = k.getLast?) : l = k := by
  induction l generalizing k with
  | nil => exact (List.head?_eq_none_iff.mp hhead.symm).symm
  | cons a l ih =>
      obtain ⟨k, rfl⟩ : ∃ k', k = a :: k' := by
        cases k with
        | nil => cases hhead
        | cons b k => exact ⟨k, by rw [Option.some.inj hhead]⟩
      obtain ⟨hal, hndl⟩ := List.nodup_cons.mp hndl
      obtain ⟨hak, hndk⟩ := List.nodup_cons.mp hndk
      rw [List.isChain_cons] at hl hk
      cases l with
      | nil =>
          cases k with
          | nil => rfl
          | cons c k =>
              rw [List.getLast?_cons_cons] at hlast
              exact (hak (List.mem_of_getLast? hlast.symm)).elim
      | cons b l =>
          cases k with
          | nil =>
              rw [List.getLast?_cons_cons] at hlast
              exact (hal (List.mem_of_getLast? hlast)).elim
          | cons c k =>
              have hbc : b = c := (hl.1 b rfl).1.symm.trans (hk.1 c rfl).1
              rw [ih hl.2 hk.2 hndl hndk (by rw [hbc]; rfl)
                (by simpa only [List.getLast?_cons_cons] using hlast)]

omit [DecidableEq α] in
theorem unique {k : List α} (hl : Denotes h list l) (hk : Denotes h list k) : l = k := by
  have hlast : l.getLast? = k.getLast? := hl.last.symm.trans hk.last
  rcases eq_or_ne l [] with rfl | hne
  · exact (List.getLast?_eq_none_iff.mp hlast.symm).symm
  · have hne' : k ≠ [] := by
      rintro rfl
      exact hne (List.getLast?_eq_none_iff.mp hlast)
    exact chain_unique (hl.ring hne).chain (hk.ring hne').chain hl.nodup hk.nodup
      (hl.firstOf.symm.trans hk.firstOf) hlast

end Denotes

end Nsync.Lib
