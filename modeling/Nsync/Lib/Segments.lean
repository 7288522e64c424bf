import Nsync.Lib.Dll

/-!
# Sequences cut into rings

A sequence of elements is cut into consecutive segments; each segment is a ring
of a heap of links, and any two elements of a segment are related.  When related
neighbours are linked, the segments are as long as they can be.
-/

namespace Nsync.Lib

open Links

variable {α : Type*}

/-- The list is a concatenation of rings whose elements are related by `R`. -/
inductive Segmented (h : Links α) (R : α → α → Prop) : List α → Prop where
  | nil : Segmented h R []
  | cons {s l : List α} (hr : h.Ring s) (hp : s.Pairwise R) (hl : Segmented h R l) :
      Segmented h R (s ++ l)

theorem eq_or_rel_getLast {R : α → α → Prop} {s : List α} {p x : α} (hs : s.Pairwise R)
    (hp : s.getLast? = some p) (hx : x ∈ s) : x = p ∨ R x p := by
  obtain ⟨s₀, rfl⟩ := List.getLast?_eq_some_iff.mp hp
  rcases List.mem_append.mp hx with hx | hx
  · exact Or.inr ((List.pairwise_append.mp hs).2.2 x hx p (by simp))
  · exact Or.inl (by simpa using hx)

theorem eq_or_rel_head {R : α → α → Prop} {s : List α} {n y : α} (hs : s.Pairwise R)
    (hn : s.head? = some n) (hy : y ∈ s) : y = n ∨ R n y := by
  obtain ⟨s₀, rfl⟩ := List.head?_eq_some_iff.mp hn
  rcases List.mem_cons.mp hy with hy | hy
  · exact Or.inl hy
  · exact Or.inr ((List.pairwise_cons.mp hs).1 y hy)

namespace Segmented

variable {h h' : Links α} {R R' : α → α → Prop} {l k : List α} {a e p n : α}

theorem congr (hs : Segmented h R l) (hn : ∀ x ∈ l, h'.next x = h.next x)
    (hp : ∀ x ∈ l, h'.prev x = h.prev x) (hR : ∀ x ∈ l, ∀ y ∈ l, R x y → R' x y) :
    Segmented h' R' l := by
  induction hs with
  | nil => exact .nil
  | @cons s l hr hpw hl ih =>
      refine .cons (hr.congr (fun x hx => hn x (by simp [hx])) fun x hx => hp x (by simp [hx])) ?_
        (ih (fun x hx => hn x (by simp [hx])) (fun x hx => hp x (by simp [hx])) ?_)
      · exact hpw.imp_of_mem fun ha hb => hR _ (by simp [ha]) _ (by simp [hb])
      · exact fun x hx y hy => hR x (by simp [hx]) y (by simp [hy])

theorem of_ring (hr : h.Ring l) (hp : l.Pairwise R) : Segmented h R l := by
  simpa using Segmented.cons hr hp .nil

theorem singleton (ha : h.next a = a ∧ h.prev a = a) : Segmented h R [a] :=
  of_ring (ring_singleton.mpr ha) (List.pairwise_singleton R a)

theorem append (hl : Segmented h R l) (hk : Segmented h R k) : Segmented h R (l ++ k) := by
  induction hl with
  | nil => simpa using hk
  | cons hr hp _ ih =>
      rw [List.append_assoc]
      exact .cons hr hp ih

/-- The segment of a given element. -/
theorem exists_segment (hs : Segmented h R l) (he : e ∈ l) :
    ∃ l₁ s l₂, l = l₁ ++ s ++ l₂ ∧ e ∈ s ∧ h.Ring s ∧ s.Pairwise R ∧ Segmented h R l₁ ∧
      Segmented h R l₂ := by
  induction hs with
  | nil => simp at he
  | @cons s l hr hp hl ih =>
      rcases List.mem_append.mp he with he | he
      · exact ⟨[], s, l, by simp, he, hr, hp, .nil, hl⟩
      · obtain ⟨l₁, s', l₂, rfl, hes, hr', hp', h₁, h₂⟩ := ih he
        exact ⟨s ++ l₁, s', l₂, by simp, hes, hr', hp', .cons hr hp h₁, h₂⟩

theorem getLast_segment (hs : Segmented h R l) (hp : l.getLast? = some p) (hnd : l.Nodup) :
    ∃ l₁ s, l = l₁ ++ s ∧ s.getLast? = some p ∧ h.Ring s ∧ s.Pairwise R ∧ Segmented h R l₁ := by
  obtain ⟨l₁, s, l₂, rfl, hes, hr, hpw, h₁, -⟩ := hs.exists_segment (List.mem_of_getLast? hp)
  have hnil : l₂ = [] := by
    by_contra hne
    rw [List.getLast?_append_of_ne_nil _ hne] at hp
    obtain ⟨-, -, hdisj⟩ := List.nodup_append.mp hnd
    exact hdisj p (by simp [hes]) p (List.mem_of_getLast? hp) rfl
  subst hnil
  refine ⟨l₁, s, by simp, ?_, hr, hpw, h₁⟩
  rwa [List.append_nil, List.getLast?_append_of_ne_nil _ hr.ne_nil] at hp

theorem head_segment (hs : Segmented h R l) (hn : l.head? = some n) :
    ∃ s l₂, l = s ++ l₂ ∧ s.head? = some n ∧ h.Ring s ∧ s.Pairwise R ∧ Segmented h R l₂ := by
  cases hs with
  | nil => simp at hn
  | @cons s l₂ hr hp hl =>
      refine ⟨s, l₂, rfl, ?_, hr, hp, hl⟩
      rwa [List.head?_append_of_ne_nil _ hr.ne_nil] at hn

variable [DecidableEq α]

/-- Links outside a list do not matter to it. -/
theorem splice_of_notMem (hs : Segmented h R l) {s k : List α} (hrs : h.Ring s) (hrk : h.Ring k)
    (hp : p ∈ s) (hn : n ∈ k) (hd : ∀ x ∈ l, x ∉ s ∧ x ∉ k) :
    Segmented (h.spliceAfter p n) R l := by
  refine hs.congr (fun x hx => ?_) (fun x hx => ?_) fun _ _ _ _ hxy => hxy
  · have h1 : x ≠ h.prev n := fun hx' => (hd x hx).2 (hx' ▸ hrk.prev_mem hn)
    have h2 : x ≠ p := fun hx' => (hd x hx).1 (hx' ▸ hp)
    rw [next_spliceAfter, if_neg h1, if_neg h2]
  · have h1 : x ≠ h.next p := fun hx' => (hd x hx).1 (hx' ▸ hrs.next_mem hp)
    have h2 : x ≠ n := fun hx' => (hd x hx).2 (hx' ▸ hn)
    rw [prev_spliceAfter, if_neg h1, if_neg h2]

/-- Joining the last ring of one list with the first ring of the next. -/
theorem splice (htrans : ∀ x y z, R x y → R y z → R x z) (hl : Segmented h R l)
    (hk : Segmented h R k) (hnd : (l ++ k).Nodup) (hp : l.getLast? = some p)
    (hn : k.head? = some n) (hpn : R p n) : Segmented (h.spliceAfter p n) R (l ++ k) := by
  obtain ⟨hndl, hndk, hdisj⟩ := List.nodup_append.mp hnd
  obtain ⟨l₁, s, rfl, hsp, hrs, hps, h₁⟩ := hl.getLast_segment hp hndl
  obtain ⟨s', k₂, rfl, hsn, hrs', hps', h₂⟩ := hk.head_segment hn
  have hps_mem := List.mem_of_getLast? hsp
  have hsn_mem := List.mem_of_mem_head? hsn
  have hnd' : (s ++ s').Nodup := by
    refine hnd.sublist ?_
    exact (List.sublist_append_right l₁ s).append (List.sublist_append_left s' k₂)
  obtain ⟨-, -, hd₁⟩ := List.nodup_append.mp hndl
  obtain ⟨-, -, hd₂⟩ := List.nodup_append.mp hndk
  have hmid : Segmented (h.spliceAfter p n) R (s ++ s') := by
    refine of_ring (hrs.splice hrs' hnd' hsp hsn) (List.pairwise_append.mpr ⟨hps, hps', ?_⟩)
    intro x hx y hy
    have hpy : R p y := by
      rcases eq_or_rel_head hps' hsn hy with rfl | hny
      · exact hpn
      · exact htrans p n y hpn hny
    rcases eq_or_rel_getLast hps hsp hx with rfl | hxp
    · exact hpy
    · exact htrans x p y hxp hpy
  have hl₁ : Segmented (h.spliceAfter p n) R l₁ := by
    refine h₁.splice_of_notMem hrs hrs' hps_mem hsn_mem fun x hx => ⟨fun hxs => ?_, fun hxs => ?_⟩
    · exact hd₁ x hx x hxs rfl
    · exact hdisj x (by simp [hx]) x (by simp [hxs]) rfl
  have hk₂ : Segmented (h.spliceAfter p n) R k₂ := by
    refine h₂.splice_of_notMem hrs hrs' hps_mem hsn_mem fun x hx => ⟨fun hxs => ?_, fun hxs => ?_⟩
    · exact hdisj x (by simp [hxs]) x (by simp [hx]) rfl
    · exact hd₂ x hxs x hx rfl
  have := (hl₁.append hmid).append hk₂
  simpa [List.append_assoc] using this

theorem unlink_of_notMem (hs : Segmented h R l) {s : List α} (hrs : h.Ring s) (he : e ∈ s)
    (hne : h.next e ≠ e) (hd : ∀ x ∈ l, x ∉ s) : Segmented (h.unlink e) R l := by
  refine hs.congr (fun x hx => ?_) (fun x hx => ?_) fun _ _ _ _ hxy => hxy
  · have h1 : x ≠ e := fun hx' => hd x hx (hx' ▸ he)
    have h2 : x ≠ h.prev e := fun hx' => hd x hx (hx' ▸ hrs.prev_mem he)
    rw [next_unlink hne, if_neg h1, if_neg h2]
  · have h1 : x ≠ e := fun hx' => hd x hx (hx' ▸ he)
    have h2 : x ≠ h.next e := fun hx' => hd x hx (hx' ▸ hrs.next_mem he)
    rw [prev_unlink, if_neg h1, if_neg h2]

/-- Taking an element with neighbours out of its ring. -/
theorem unlink (hs : Segmented h R l) (hnd : l.Nodup) (he : e ∈ l) (hne : h.next e ≠ e) :
    Segmented (h.unlink e) R (l.erase e) := by
  obtain ⟨l₁, s, l₂, rfl, hes, hr, hpw, h₁, h₂⟩ := hs.exists_segment he
  obtain ⟨hnd₁, hnd₂, hd₁⟩ := List.nodup_append.mp hnd
  obtain ⟨-, hnds, hd₂⟩ := List.nodup_append.mp hnd₁
  have he₁ : e ∉ l₁ := fun hm => hd₂ e hm e hes rfl
  have hmid : Segmented (h.unlink e) R (s.erase e) :=
    of_ring (hr.unlink hnds hes hne) (hpw.sublist List.erase_sublist)
  have hl₁ : Segmented (h.unlink e) R l₁ :=
    h₁.unlink_of_notMem hr hes hne fun x hx hxs => hd₂ x hx x hxs rfl
  have hl₂ : Segmented (h.unlink e) R l₂ :=
    h₂.unlink_of_notMem hr hes hne fun x hx hxs => hd₁ x (by simp [hxs]) x hx rfl
  rw [List.erase_append_left _ (by simp [hes]), List.erase_append_right _ he₁]
  exact (hl₁.append hmid).append hl₂

omit [DecidableEq α] in
/-- An element without neighbours is a segment of its own. -/
theorem split_alone (hs : Segmented h R l) (hnd : l.Nodup) (he : e ∈ l) (hne : h.next e = e) :
    ∃ l₁ l₂, l = l₁ ++ e :: l₂ ∧ Segmented h R l₁ ∧ Segmented h R l₂ := by
  obtain ⟨l₁, s, l₂, rfl, hes, hr, -, h₁, h₂⟩ := hs.exists_segment he
  have hnds : s.Nodup := hnd.sublist
    ((List.sublist_append_right l₁ s).trans (List.sublist_append_left (l₁ ++ s) l₂))
  obtain rfl := hr.eq_singleton hnds hes hne
  exact ⟨l₁, l₂, by simp, h₁, h₂⟩

end Segmented

/-! ## Longest segments -/

/-- Neighbours of the list that are related are linked, so that no two segments
could be one. -/
def Joined (h : Links α) (R : α → α → Prop) (l : List α) : Prop :=
  l.IsChain fun x y => R x y → h.next x = y

namespace Joined

variable {h h' : Links α} {R R' : α → α → Prop} {l k l₁ l₂ : List α} {a e p n : α}

theorem congr (hj : Joined h R l) (hn : ∀ x ∈ l, h'.next x = h.next x)
    (hR : ∀ x ∈ l, ∀ y ∈ l, R' x y → R x y) : Joined h' R' l :=
  hj.imp_of_mem_imp fun x y hx hy hxy hr => (hn x hx).trans (hxy (hR x hx y hy hr))

theorem singleton : Joined h R [a] := List.IsChain.singleton a

/-- Without its first and its last element a list is still joined. -/
theorem cut (hj : Joined h R (l₁ ++ e :: l₂)) : Joined h R l₁ ∧ Joined h R l₂ := by
  obtain ⟨h₁, h₂, -⟩ := List.isChain_append.mp hj
  exact ⟨h₁, h₂.tail⟩

theorem append (hl : Joined h R l) (hk : Joined h R k)
    (hb : ∀ p ∈ l.getLast?, ∀ n ∈ k.head?, ¬R p n) : Joined h R (l ++ k) :=
  List.IsChain.append hl hk fun p hp n hn hr => (hb p hp n hn hr).elim

variable [DecidableEq α]

/-- Joining the last ring of one list with the first ring of the next. -/
theorem splice (hl : Joined h R l) (hk : Joined h R k)
    (hsk : Segmented h R k) (hnd : (l ++ k).Nodup) (hp : l.getLast? = some p)
    (hn : k.head? = some n) : Joined (h.spliceAfter p n) R (l ++ k) := by
  obtain ⟨hndl, hndk, hdisj⟩ := List.nodup_append.mp hnd
  obtain ⟨s, k₂, rfl, hsn, hrs, -⟩ := hsk.head_segment hn
  have hns : n ∈ s := List.mem_of_mem_head? hsn
  have hprev : h.prev n ∈ s ++ k₂ := by simp [hrs.prev_mem hns]
  have hpl : p ∈ l := List.mem_of_getLast? hp
  refine List.IsChain.append ?_ ?_ fun x hx y hy _ => ?_
  · refine List.isChain_iff_forall_rel_of_append_cons_cons.mpr fun x y l₁ l₂ hsplit hr => ?_
    have hxp : x ≠ p := by
      rintro rfl
      rw [hsplit, List.getLast?_append_of_ne_nil _ (by simp), List.getLast?_cons_cons] at hp
      rw [hsplit] at hndl
      exact (List.nodup_cons.mp (List.nodup_append.mp hndl).2.1).1 (List.mem_of_getLast? hp)
    have hxk : x ≠ h.prev n := hdisj x (by simp [hsplit]) _ hprev
    rw [next_spliceAfter, if_neg hxk, if_neg hxp]
    exact List.isChain_iff_forall_rel_of_append_cons_cons.mp hl hsplit hr
  · refine hk.imp_of_mem_tail_imp fun x y hx hy hxy hr => ?_
    have hxn : x ≠ h.prev n := by
      -- the last of the first ring leads back to the first element
      rintro rfl
      have hback : h.next (h.prev n) = n := by
        obtain ⟨b, hb⟩ := Option.isSome_iff_exists.mp (List.getLast?_isSome.mpr hrs.ne_nil)
        obtain ⟨h1, h2⟩ := hrs.closed n hsn b hb
        rw [h2, h1]
      have hyn : n = y := hback.symm.trans (hxy hr)
      obtain ⟨k', hk'⟩ := List.head?_eq_some_iff.mp hn
      rw [hk'] at hy hndk
      exact (List.nodup_cons.mp hndk).1 (hyn ▸ hy)
    have hxp : x ≠ p := (hdisj p hpl x hx).symm
    rw [next_spliceAfter, if_neg hxn, if_neg hxp]
    exact hxy hr
  · obtain rfl : p = x := Option.some.inj (hp.symm.trans hx)
    obtain rfl : n = y := Option.some.inj (hn.symm.trans hy)
    rw [next_spliceAfter, if_neg (hdisj p hpl _ hprev), if_pos rfl]

/-- Taking an element with neighbours out of its ring. -/
theorem unlink (hsymm : ∀ x y, R x y → R y x) (htrans : ∀ x y z, R x y → R y z → R x z)
    (hj : Joined h R (l₁ ++ e :: l₂)) (hs : Segmented h R (l₁ ++ e :: l₂))
    (hnd : (l₁ ++ e :: l₂).Nodup) (hne : h.next e ≠ e) : Joined (h.unlink e) R (l₁ ++ l₂) := by
  obtain ⟨hj₁, hj₂⟩ := hj.cut
  obtain ⟨-, hnd₂, hdisj⟩ := List.nodup_append.mp hnd
  have he₁ : e ∉ l₁ := fun hm => hdisj e hm e (by simp) rfl
  have he₂ : e ∉ l₂ := (List.nodup_cons.mp hnd₂).1
  obtain ⟨A, s, B, hsplit, hes, hr, hpw, hA, -⟩ := hs.exists_segment (e := e) (by simp)
  obtain ⟨s₁, s₂, rfl⟩ := List.append_of_mem hes
  have hnds : (s₁ ++ e :: s₂).Nodup := by
    rw [hsplit] at hnd
    exact hnd.sublist ((List.sublist_append_right A _).trans (List.sublist_append_left _ B))
  have hd : Denotes h (s₁ ++ e :: s₂).getLast? (s₁ ++ e :: s₂) := ⟨rfl, fun _ => hr, hnds⟩
  have hback : h.next (h.prev e) = e := (hd.inverse hes).2
  have hkeep : ∀ x y, x ≠ e → y ≠ e → h.next x = y → (h.unlink e).next x = y := by
    intro x y hx hy hxy
    rw [next_unlink hne, if_neg hx, if_neg, hxy]
    rintro rfl
    exact hy (hxy.symm.trans hback)
  refine List.IsChain.append ?_ ?_ fun x hx y hy hr' => ?_
  · exact hj₁.imp_of_mem_imp fun x y hx hy hxy hr' =>
      hkeep x y (fun hxe => he₁ (hxe ▸ hx)) (fun hye => he₁ (hye ▸ hy)) (hxy hr')
  · exact hj₂.imp_of_mem_imp fun x y hx hy hxy hr' =>
      hkeep x y (fun hxe => he₂ (hxe ▸ hx)) (fun hye => he₂ (hye ▸ hy)) (hxy hr')
  · -- one of the two neighbours is in the ring of `e`, so both are related to `e`
    obtain ⟨hxe, hey⟩ : (R x e → h.next x = e) ∧ (R e y → h.next e = y) := by
      obtain ⟨-, h₂, h₃⟩ := List.isChain_append.mp hj
      exact ⟨h₃ x hx e (by simp), (List.isChain_cons.mp h₂).1 y hy⟩
    have hdec : l₁ ++ e :: l₂ = (A ++ s₁) ++ e :: (s₂ ++ B) := by simpa using hsplit
    have heA : e ∉ A ++ s₁ := by
      rw [hdec] at hnd
      exact fun hm => (List.nodup_append.mp hnd).2.2 e hm e (by simp) rfl
    obtain ⟨rfl, -, rfl⟩ := (List.append_cons_inj_of_notMem he₁ he₂).mp hdec
    obtain ⟨-, hpw₂, hpw₃⟩ := List.pairwise_append.mp hpw
    have hrel : R x e ∧ h.prev e = x := by
      rcases List.eq_nil_or_concat s₁ with rfl | ⟨s₁, b, rfl⟩
      · cases s₂ with
        | nil => exact absurd (Links.ring_singleton.mp hr).1 hne
        | cons c s₂ =>
            obtain rfl : c = y := by simpa using hy
            have hec : R e c := (List.pairwise_cons.mp hpw₂).1 c (by simp)
            -- the link of `x` would leave its ring
            have hxA : x ∈ A := by simpa using List.mem_of_getLast? hx
            have hnext := hxe (htrans _ _ _ hr' (hsymm _ _ hec))
            obtain ⟨A₁, r, A₂, rfl, hxr, hrr, -⟩ := hA.exists_segment hxA
            have := hrr.next_mem hxr
            rw [hnext] at this
            exact absurd (by simp [this]) heA
      · obtain rfl : b = x := by simpa [List.getLast?_append] using hx
        have hbe : R b e := hpw₃ b (by simp) e (by simp)
        refine ⟨hbe, ?_⟩
        rw [← hxe hbe]
        exact (hd.inverse (by simp)).1
    obtain ⟨hrxe, hprev⟩ := hrel
    have hxe' : x ≠ e := by
      rintro rfl
      exact he₁ (List.mem_of_getLast? hx)
    rw [next_unlink hne, if_neg hxe', if_pos hprev.symm]
    exact hey (htrans _ _ _ (hsymm _ _ hrxe) hr')

end Joined

/-- The segments of a joined list, as a list of lists. -/
theorem Segmented.parts {h : Links α} {R : α → α → Prop} {l : List α}
    (hsymm : ∀ x y, R x y → R y x) (htrans : ∀ x y z, R x y → R y z → R x z)
    (hs : Segmented h R l) (hj : Joined h R l) (hnd : l.Nodup) :
    ∃ parts : List (List α), parts.flatten = l ∧ (∀ s ∈ parts, h.Ring s ∧ s.Pairwise R) ∧
      parts.IsChain fun s s' => ∀ x ∈ s, ∀ y ∈ s', ¬R x y := by
  induction hs with
  | nil => exact ⟨[], rfl, by simp, .nil⟩
  | @cons s l hr hp hl ih =>
      obtain ⟨-, hjl, hb⟩ := List.isChain_append.mp hj
      obtain ⟨-, hndl, hdisj⟩ := List.nodup_append.mp hnd
      obtain ⟨parts, rfl, hparts, hchain⟩ := ih hjl hndl
      refine ⟨s :: parts, by simp, by simpa using ⟨⟨hr, hp⟩, hparts⟩, hchain.cons fun s' hs' => ?_⟩
      intro x hx y hy hxy
      have hs'm : s' ∈ parts := List.mem_of_mem_head? hs'
      obtain ⟨hr', hp'⟩ := hparts s' hs'm
      obtain ⟨p, hpl⟩ := Option.isSome_iff_exists.mp (List.getLast?_isSome.mpr hr.ne_nil)
      obtain ⟨n, hnh⟩ := Option.isSome_iff_exists.mp (List.isSome_head?.mpr hr'.ne_nil)
      have hpn : R p n := by
        have hpy : R p y := by
          rcases eq_or_rel_getLast hp hpl hx with rfl | hxp
          · exact hxy
          · exact htrans p x y (hsymm x p hxp) hxy
        rcases eq_or_rel_head hp' hnh hy with rfl | hny
        · exact hpy
        · exact htrans p y n hpy (hsymm n y hny)
      have hhead : n ∈ parts.flatten.head? := by
        obtain ⟨parts, rfl⟩ := List.head?_eq_some_iff.mp hs'
        rw [List.flatten_cons, List.head?_append_of_ne_nil _ hr'.ne_nil]
        exact hnh
      -- the ring of `p` would contain `n`
      have hnext : h.next p = n := hb p hpl n hhead hpn
      have hmem := hr.next_mem (List.mem_of_getLast? hpl)
      rw [hnext] at hmem
      exact hdisj n hmem n (List.mem_of_mem_head? hhead) rfl

end Nsync.Lib
