import Mathlib

/-!
# Circular doubly linked lists

A heap of `next` and `prev` links over an arbitrary type of elements, with the
two primitive updates that intrusive circular lists are built from.  A list of
elements is a *ring* of the heap when following the links visits it in order
and comes back to its first element.
-/

namespace Nsync.Lib

/-- The link fields of every element. -/
@[ext] structure Links (α : Type*) where
  next : α → α
  prev : α → α

namespace Links

variable {α : Type*} [DecidableEq α]

/-- Every element alone in its own ring. -/
def singletons : Links α where
  next := id
  prev := id

def setNext (h : Links α) (a b : α) : Links α :=
  { h with next := Function.update h.next a b }

def setPrev (h : Links α) (a b : α) : Links α :=
  { h with prev := Function.update h.prev a b }

/-- Take `e` out of its ring and leave it alone in its own. -/
def unlink (h : Links α) (e : α) : Links α :=
  let h₁ := h.setPrev (h.next e) (h.prev e)
  let h₂ := h₁.setNext (h₁.prev e) (h₁.next e)
  (h₂.setNext e e).setPrev e e

/-- Insert the whole ring that starts at `n` right after `p`. -/
def spliceAfter (h : Links α) (p n : α) : Links α :=
  let p2nd := h.next p
  let nLast := h.prev n
  (((h.setNext p n).setPrev n p).setNext nLast p2nd).setPrev p2nd nLast

/-! ## Rings -/

def Linked (h : Links α) (a b : α) : Prop := h.next a = b ∧ h.prev b = a

/-- Following the links from the first element visits the list in order and
comes back. -/
structure Ring (h : Links α) (l : List α) : Prop where
  ne_nil : l ≠ []
  chain : l.IsChain h.Linked
  closed : ∀ a ∈ l.head?, ∀ b ∈ l.getLast?, h.Linked b a

variable {h h' : Links α} {l k : List α} {a e p n : α}

omit [DecidableEq α] in
/-- A chain reads the `next` links of all but its last element and the `prev`
links of all but its first. -/
theorem chain_congr (hc : l.IsChain h.Linked) (hl : l.Nodup)
    (hn : ∀ x ∈ l, l.getLast? ≠ some x → h'.next x = h.next x)
    (hp : ∀ x ∈ l, l.head? ≠ some x → h'.prev x = h.prev x) : l.IsChain h'.Linked := by
  induction l with
  | nil => exact .nil
  | cons a l ih =>
      rw [List.isChain_cons] at hc ⊢
      rw [List.nodup_cons] at hl
      refine ⟨fun b hb => ?_, ih hc.2 hl.2 (fun x hx hne => ?_) (fun x hx _ => ?_)⟩
      · have hmem : b ∈ l := List.mem_of_mem_head? hb
        have hab : a ≠ b := fun hab => hl.1 (hab ▸ hmem)
        have hlast : (a :: l).getLast? ≠ some a := by
          intro hlast
          rw [List.getLast?_cons_of_ne_nil (List.ne_nil_of_mem hmem)] at hlast
          exact hl.1 (List.mem_of_getLast? hlast)
        obtain ⟨h1, h2⟩ := hc.1 b hb
        exact ⟨(hn a (by simp) hlast).trans h1,
          (hp b (by simp [hmem]) (by simpa using hab)).trans h2⟩
      · refine hn x (by simp [hx]) ?_
        rwa [List.getLast?_cons_of_ne_nil (List.ne_nil_of_mem hx)]
      · have hax : a ≠ x := fun hax => hl.1 (hax ▸ hx)
        exact hp x (by simp [hx]) (by simpa using hax)

omit [DecidableEq α] in
theorem Ring.congr (hr : h.Ring l) (hn : ∀ x ∈ l, h'.next x = h.next x)
    (hp : ∀ x ∈ l, h'.prev x = h.prev x) : h'.Ring l where
  ne_nil := hr.ne_nil
  chain := hr.chain.imp_of_mem_imp fun a b ha hb hab => ⟨(hn a ha).trans hab.1, (hp b hb).trans hab.2⟩
  closed a ha b hb := by
    obtain ⟨h1, h2⟩ := hr.closed a ha b hb
    exact ⟨(hn b (List.mem_of_getLast? hb)).trans h1, (hp a (List.mem_of_mem_head? ha)).trans h2⟩

omit [DecidableEq α] in
theorem ring_singleton : h.Ring [a] ↔ h.next a = a ∧ h.prev a = a := by
  constructor
  · intro hr
    exact hr.closed a (by simp) a (by simp)
  · intro ha
    exact ⟨by simp, .singleton a, by simpa [Linked] using ha⟩

omit [DecidableEq α] in
/-- The neighbours of an element of a ring, at any point of it. -/
theorem Ring.neighbours {l₁ l₂ : List α} (hr : h.Ring (l₁ ++ e :: l₂)) :
    some (h.next e) = (l₂ ++ l₁ ++ [e]).head? ∧ some (h.prev e) = (e :: l₂ ++ l₁).getLast? := by
  obtain ⟨h1, h2, h3⟩ := List.isChain_append.mp hr.chain
  rw [List.isChain_cons] at h2
  have hclosed := hr.closed
  constructor
  · cases l₂ with
    | cons b l₂ => simpa using (h2.1 b (by simp)).1
    | nil =>
        cases l₁ with
        | nil => simpa using (hclosed e (by simp) e (by simp)).1
        | cons a l₁ => simpa using (hclosed a (by simp) e (List.getLast?_concat ..)).1
  · rcases List.eq_nil_or_concat l₁ with rfl | ⟨l₁, a, rfl⟩
    · rcases List.eq_nil_or_concat l₂ with rfl | ⟨l₂, b, rfl⟩
      · simpa using (hclosed e (by simp) e (by simp)).2
      · simpa [List.getLast?_cons] using (hclosed e (by simp) b (by simp [List.getLast?_cons])).2
    · simpa [List.getLast?_append, List.getLast?_cons] using (h3 a (by simp) e (by simp)).2

omit [DecidableEq α] in
theorem Ring.next_mem (hr : h.Ring l) (he : e ∈ l) : h.next e ∈ l := by
  obtain ⟨l₁, l₂, rfl⟩ := List.append_of_mem he
  have := List.mem_of_mem_head? (Option.mem_def.mpr hr.neighbours.1.symm)
  simp only [List.mem_append, List.mem_cons, List.not_mem_nil, or_false] at this ⊢
  tauto

omit [DecidableEq α] in
theorem Ring.prev_mem (hr : h.Ring l) (he : e ∈ l) : h.prev e ∈ l := by
  obtain ⟨l₁, l₂, rfl⟩ := List.append_of_mem he
  have := List.mem_of_getLast? hr.neighbours.2.symm
  simp only [List.mem_append, List.mem_cons] at this ⊢
  tauto

/-! ## Splicing -/

theorem next_spliceAfter (x : α) : (h.spliceAfter p n).next x =
    if x = h.prev n then h.next p else if x = p then n else h.next x := by
  simp only [spliceAfter, setNext, setPrev, Function.update_apply]

theorem prev_spliceAfter (x : α) : (h.spliceAfter p n).prev x =
    if x = h.next p then h.prev n else if x = n then p else h.prev x := by
  simp only [spliceAfter, setNext, setPrev, Function.update_apply]

theorem Ring.splice (hl : h.Ring l) (hk : h.Ring k) (hnd : (l ++ k).Nodup)
    (hp : l.getLast? = some p) (hn : k.head? = some n) : (h.spliceAfter p n).Ring (l ++ k) := by
  obtain ⟨hndl, hndk, hdisj⟩ := List.nodup_append.mp hnd
  obtain ⟨a, ha⟩ := Option.isSome_iff_exists.mp (List.isSome_head?.mpr hl.ne_nil)
  obtain ⟨b, hb⟩ := Option.isSome_iff_exists.mp (List.getLast?_isSome.mpr hk.ne_nil)
  obtain ⟨hpa, hap⟩ := hl.closed a ha p hp
  obtain ⟨hbn, hnb⟩ := hk.closed n hn b hb
  have hal := List.mem_of_mem_head? ha
  have hpl := List.mem_of_getLast? hp
  have hnk := List.mem_of_mem_head? hn
  have hbk := List.mem_of_getLast? hb
  have hne : ∀ x ∈ l, ∀ y ∈ k, x ≠ y := hdisj
  refine ⟨by simp [hl.ne_nil], List.isChain_append.mpr ⟨?_, ?_, ?_⟩, ?_⟩
  · refine chain_congr hl.chain hndl (fun x hx hlast => ?_) (fun x hx hhead => ?_)
    · have hxp : x ≠ p := by rintro rfl; exact hlast hp
      rw [next_spliceAfter, hnb, if_neg (hne x hx b hbk), if_neg hxp]
    · have hxa : x ≠ a := by rintro rfl; exact hhead ha
      rw [prev_spliceAfter, hpa, if_neg hxa, if_neg (hne x hx n hnk)]
  · refine chain_congr hk.chain hndk (fun x hx hlast => ?_) (fun x hx hhead => ?_)
    · have hxb : x ≠ b := by rintro rfl; exact hlast hb
      rw [next_spliceAfter, hnb, if_neg hxb, if_neg (hne p hpl x hx).symm]
    · have hxn : x ≠ n := by rintro rfl; exact hhead hn
      rw [prev_spliceAfter, hpa, if_neg (hne a hal x hx).symm, if_neg hxn]
  · intro x hx y hy
    have hxp : p = x := by simpa [hp] using hx
    have hyn : n = y := by simpa [hn] using hy
    subst hxp hyn
    constructor
    · rw [next_spliceAfter, hnb, if_neg (hne p hpl b hbk), if_pos rfl]
    · rw [prev_spliceAfter, hpa, if_neg (hne a hal n hnk).symm, if_pos rfl]
  · intro x hx y hy
    have hxa : a = x := by simpa [List.head?_append, ha] using hx
    have hyb : b = y := by simpa [List.getLast?_append, hb] using hy
    subst hxa hyb
    constructor
    · rw [next_spliceAfter, hnb, if_pos rfl, hpa]
    · rw [prev_spliceAfter, hpa, if_pos rfl, hnb]

/-! ## Unlinking -/

theorem next_unlink (he : h.next e ≠ e) (x : α) : (h.unlink e).next x =
    if x = e then e else if x = h.prev e then h.next e else h.next x := by
  simp only [unlink, setNext, setPrev, Function.update_apply, Ne.symm he, if_false]

theorem prev_unlink (x : α) : (h.unlink e).prev x =
    if x = e then e else if x = h.next e then h.prev e else h.prev x := by
  simp only [unlink, setNext, setPrev, Function.update_apply]

omit [DecidableEq α] in
theorem Ring.eq_singleton (hr : h.Ring l) (hl : l.Nodup) (he : e ∈ l) (hne : h.next e = e) :
    l = [e] := by
  obtain ⟨l₁, l₂, rfl⟩ := List.append_of_mem he
  have hnext := hr.neighbours.1
  rw [hne] at hnext
  rw [List.nodup_append, List.nodup_cons] at hl
  cases l₂ with
  | cons b l₂ =>
      simp only [List.cons_append, List.head?_cons, Option.some.injEq] at hnext
      exact absurd hnext (by rintro rfl; simp at hl)
  | nil =>
      cases l₁ with
      | nil => rfl
      | cons a l₁ =>
          simp only [List.nil_append, List.cons_append, List.head?_cons, Option.some.injEq] at hnext
          exact absurd hnext (by rintro rfl; simp at hl)

/-- What is left of a ring without `e`, when the links of `e` are bypassed. -/
theorem Ring.bypass (hl : l.Nodup) (hel : e ∉ l) (hc : l.IsChain h.Linked)
    (hn : h.next e ∈ l.head?) (hp : h.prev e ∈ l.getLast?) (hne : h.next e ≠ e) :
    (h.unlink e).Ring l := by
  have hxe : ∀ x ∈ l, x ≠ e := by
    rintro x hx rfl
    exact hel hx
  refine ⟨?_, ?_, ?_⟩
  · rintro rfl
    simp at hn
  · refine chain_congr hc hl (fun x hx hlast => ?_) (fun x hx hhead => ?_)
    · have : x ≠ h.prev e := by rintro rfl; exact hlast hp
      rw [next_unlink hne, if_neg (hxe x hx), if_neg this]
    · have : x ≠ h.next e := by rintro rfl; exact hhead hn
      rw [prev_unlink, if_neg (hxe x hx), if_neg this]
  · intro a ha b hb
    have hae : a = h.next e := Option.some.inj (ha.symm.trans hn)
    have hbe : b = h.prev e := Option.some.inj (hb.symm.trans hp)
    subst hae hbe
    constructor
    · rw [next_unlink hne, if_neg (hxe _ (List.mem_of_getLast? hb)), if_pos rfl]
    · rw [prev_unlink, if_neg (hxe _ (List.mem_of_mem_head? ha)), if_pos rfl]

theorem Ring.unlink (hr : h.Ring l) (hl : l.Nodup) (he : e ∈ l) (hne : h.next e ≠ e) :
    (h.unlink e).Ring (l.erase e) := by
  obtain ⟨l₁, l₂, rfl⟩ := List.append_of_mem he
  obtain ⟨hnext, hprev⟩ := hr.neighbours
  obtain ⟨hnd₁, hnd₂, hdisj⟩ := List.nodup_append.mp hl
  rw [List.nodup_cons] at hnd₂
  have he₁ : e ∉ l₁ := fun hm => hdisj e hm e (by simp) rfl
  obtain ⟨hc₁, hc₂, -⟩ := List.isChain_append.mp hr.chain
  rw [List.isChain_cons] at hc₂
  rw [List.erase_append_right _ he₁, List.erase_cons_head]
  rcases List.eq_nil_or_concat l₁ with rfl | ⟨k₁, p, rfl⟩
  · cases l₂ with
    | nil => exact absurd (by simpa using hnext) hne
    | cons n k₂ =>
        refine Ring.bypass hnd₂.2 hnd₂.1 hc₂.2 (by simpa using hnext.symm) ?_ hne
        simpa [List.getLast?_cons] using hprev.symm
  · cases l₂ with
    | nil =>
        simp only [List.append_nil, List.nil_append] at hnext hprev ⊢
        refine Ring.bypass hnd₁ he₁ hc₁ ?_ (by simpa [List.getLast?_cons] using hprev.symm) hne
        rw [Option.mem_def, hnext]
        cases k₁ <;> simp
    | cons n k₂ =>
        have hnext' : h.next e = n := by simpa using hnext
        have hprev' : h.prev e = p := by simpa [List.getLast?_append, List.getLast?_cons] using hprev
        have hx₁ : ∀ x ∈ k₁.concat p, x ≠ e := by
          rintro x hx rfl
          exact he₁ hx
        have hx₂ : ∀ x ∈ n :: k₂, x ≠ e := by
          rintro x hx rfl
          exact hnd₂.1 hx
        have hx₁₂ : ∀ x ∈ k₁.concat p, ∀ y ∈ n :: k₂, x ≠ y := fun x hx y hy =>
          hdisj x hx y (by simp [List.mem_cons.mp hy])
        have hp : p ∈ k₁.concat p := by simp
        have hn : n ∈ n :: k₂ := by simp
        refine ⟨by simp, List.isChain_append.mpr ⟨?_, ?_, ?_⟩, ?_⟩
        · refine chain_congr hc₁ hnd₁ (fun x hx hlast => ?_) (fun x hx _ => ?_)
          · have hxp : x ≠ p := by rintro rfl; simp at hlast
            rw [next_unlink hne, hprev', if_neg (hx₁ x hx), if_neg hxp]
          · rw [prev_unlink, hnext', if_neg (hx₁ x hx), if_neg (hx₁₂ x hx n hn)]
        · refine chain_congr hc₂.2 hnd₂.2 (fun x hx _ => ?_) (fun x hx hhead => ?_)
          · rw [next_unlink hne, hprev', if_neg (hx₂ x hx), if_neg (hx₁₂ p hp x hx).symm]
          · have hxn : x ≠ n := by rintro rfl; simp at hhead
            rw [prev_unlink, hnext', if_neg (hx₂ x hx), if_neg hxn]
        · intro x hx y hy
          have hxp : p = x := by simpa using hx
          have hyn : n = y := by simpa using hy
          subst hxp hyn
          constructor
          · rw [next_unlink hne, hprev', if_neg (hx₁ p hp), if_pos rfl, hnext']
          · rw [prev_unlink, hnext', if_neg (hx₂ n hn), if_pos rfl, hprev']
        · intro a ha b hb
          have ha₁ : a ∈ (k₁.concat p).head? := by
            rw [List.head?_append_of_ne_nil _ (by simp)] at ha
            exact ha
          have hb₂ : b ∈ (n :: k₂).getLast? := by
            rw [List.getLast?_append_of_ne_nil _ (by simp)] at hb
            exact hb
          obtain ⟨h1, h2⟩ := hr.closed a
            (by rw [List.head?_append_of_ne_nil _ (by simp)]; exact ha₁) b
            (by rw [List.getLast?_append_of_ne_nil _ (by simp), List.getLast?_cons_cons]; exact hb₂)
          have ham := List.mem_of_mem_head? ha₁
          have hbm := List.mem_of_getLast? hb₂
          constructor
          · rw [next_unlink hne, hprev', if_neg (hx₂ b hbm), if_neg (hx₁₂ p hp b hbm).symm, h1]
          · rw [prev_unlink, hnext', if_neg (hx₁ a ham), if_neg (hx₁₂ a ham n hn), h2]

end Links

end Nsync.Lib
