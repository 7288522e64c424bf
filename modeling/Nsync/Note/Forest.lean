import Nsync.Note.Calls
import Nsync.Lib.Forest

/-!
# What notification does to a forest of notes

The parents and the lists of children of the notes describe one forest.  A call of
`note_notify_child` on an open note shuts it and all the notes below it, cuts these
off from each other, and leaves every other note as it is.
-/

set_option linter.unusedSectionVars false

namespace Nsync.Note

open Nsync.Lib
open Nsync.Wait (Note nextIn)

variable {τ : Type} [LinearOrder τ] [OrderTop τ] [Zero τ] {s s' : Heap τ} {n p c x : ℕ}

@[simp] theorem Heap.set_note (s : Heap τ) (n : ℕ) (x : Note Unit τ) :
    (s.set n x).note = Function.update s.note n x := rfl

@[simp] theorem Heap.set_notes (s : Heap τ) (n : ℕ) (x : Note Unit τ) :
    (s.set n x).notes = s.notes := rfl

/-- The parents and the children of the notes describe one forest. -/
structure Linked (s : Heap τ) : Prop where
  mem_iff : ∀ p c, c ∈ (s.note p).children ↔ s.parent c = some p
  nodup : ∀ p, (s.note p).children.Nodup
  lt : ∀ c p, s.parent c = some p → p < c
  used : ∀ c p, s.parent c = some p → c < s.notes

/-- A note that has been notified, alone and with no waiters. -/
def shut (x : Note Unit τ) : Note Unit τ :=
  { x with notified := true, waiters := [], children := [], parent := none }

open Classical in
/-- The notes after `n` and everything below it have been notified. -/
noncomputable def tell (s : Heap τ) (n : ℕ) : Heap τ :=
  { s with note := fun x =>
      if Below s.parent n x then shut (s.note x)
      else { s.note x with children := (s.note x).children.erase n } }

theorem tell_below (h : Below s.parent n x) : (tell s n).note x = shut (s.note x) := by
  simp [tell, h]

theorem tell_other (h : ¬ Below s.parent n x) :
    (tell s n).note x = { s.note x with children := (s.note x).children.erase n } := by
  simp [tell, h]

@[simp] theorem tell_notes : (tell s n).notes = s.notes := rfl

theorem tell_parent (s : Heap τ) (n : ℕ) [Decidable (Below s.parent n x)] :
    (tell s n).parent x = if Below s.parent n x then none else s.parent x := by
  by_cases h : Below s.parent n x
  · simp [Heap.parent, tell_below h, h, shut]
  · simp [Heap.parent, tell_other h, h]

/-- Telling only cuts. -/
theorem parent_of_tell (h : (tell s n).parent x = some p) :
    s.parent x = some p ∧ ¬ Below s.parent n x := by
  classical
  rw [tell_parent] at h
  split at h
  case isTrue => cases h
  case isFalse hx => exact ⟨h, hx⟩

theorem Linked.tell (hl : Linked s) (n : ℕ) : Linked (tell s n) := by
  classical
  constructor
  · intro p c
    rw [tell_parent]
    by_cases hp : Below s.parent n p
    · rw [tell_below hp]
      by_cases hc : Below s.parent n c
      · simp [shut, hc]
      · simp only [shut, List.not_mem_nil, if_neg hc, false_iff]
        exact fun h => hc (hp.child h)
    · rw [tell_other hp]
      by_cases hc : Below s.parent n c
      · simp only [if_pos hc, reduceCtorEq, iff_false]
        intro h
        rcases hc.eq_or_parent with rfl | ⟨q, hq, hnq⟩
        · exact (hl.nodup p).not_mem_erase h
        · have hcp := (hl.mem_iff p c).mp (List.mem_of_mem_erase h)
          rw [hcp] at hq
          cases hq
          exact hp hnq
      · rw [if_neg hc, ← hl.mem_iff]
        have hcn : c ≠ n := fun h => hc (h ▸ Below.refl)
        exact List.mem_erase_of_ne hcn
  · intro p
    by_cases hp : Below s.parent n p
    · rw [tell_below hp]
      exact List.nodup_nil
    · rw [tell_other hp]
      exact (hl.nodup p).erase n
  · intro c p h
    exact hl.lt c p (parent_of_tell h).1
  · intro c p h
    exact hl.used c p (parent_of_tell h).1

/-- Below a note that is not below `n`, and which `n` is not below, nothing is cut. -/
theorem below_tell (hc : ∀ y, Below s.parent c y → ¬ Below s.parent n y) :
    Below (tell s n).parent c x ↔ Below s.parent c x := by
  classical
  refine Below.iff_of_kept (fun y p h => (parent_of_tell h).1) ?_
  intro y p hp hy
  rw [tell_parent, if_neg (hc y (hp.child hy))]
  exact hy

/-! ## The loop over the children -/

/-- A note that notification goes through. -/
structure Open (s : Heap τ) (n : ℕ) : Prop where
  mu : (s.note n).noteMu = none
  connected : (s.note n).disconnecting = 0
  pending : 0 < (s.note n).notifiedTime

theorem Linked.siblings (hl : Linked s) {a b : ℕ} (ha : a ∈ (s.note n).children)
    (hb : b ∈ (s.note n).children) (hab : a ≠ b) (hx : Below s.parent b x) :
    ¬ Below s.parent a x := by
  intro hax
  exact hab (Below.siblings hl.lt ((hl.mem_iff n a).mp ha) ((hl.mem_iff n b).mp hb) hax hx)

theorem Linked.not_below (hl : Linked s) (hc : c ∈ (s.note n).children) : ¬ Below s.parent c n :=
  Below.not_of_child hl.lt ((hl.mem_iff n c).mp hc)

theorem Linked.length_le (hl : Linked s) (n : ℕ) : (s.note n).children.length ≤ s.notes := by
  have hsub : (s.note n).children ⊆ List.range s.notes := by
    intro c hc
    exact List.mem_range.mpr (hl.used c n ((hl.mem_iff n c).mp hc))
  simpa using ((hl.nodup n).subperm hsub).length_le

/-- Some children of `n` are told, one after the other. -/
theorem foldl_tell (hl : Linked s) {l : List ℕ} (hn : l.Nodup) (hs : l ⊆ (s.note n).children)
    [Decidable (∃ c ∈ l, Below s.parent c x)] :
    (l.foldl tell s).note x =
      if ∃ c ∈ l, Below s.parent c x then shut (s.note x)
      else { s.note x with children := (s.note x).children.diff l } := by
  classical
  induction l generalizing s with
  | nil => simp
  | cons c l ih =>
    have hc : c ∈ (s.note n).children := hs List.mem_cons_self
    have hcl : c ∉ l := (List.nodup_cons.mp hn).1
    have hsib : ∀ d ∈ l, ∀ y, Below s.parent d y → ¬ Below s.parent c y := by
      intro d hd y hy
      exact hl.siblings hc (hs (List.mem_cons_of_mem c hd)) (fun h => hcl (h ▸ hd)) hy
    have hsub : l ⊆ ((tell s c).note n).children := by
      intro d hd
      have hdc : d ≠ c := fun h => hcl (h ▸ hd)
      rw [tell_other (hl.not_below hc)]
      exact (List.mem_erase_of_ne hdc).mpr (hs (List.mem_cons_of_mem c hd))
    have hiff : (∃ d ∈ l, Below (tell s c).parent d x) ↔ ∃ d ∈ l, Below s.parent d x := by
      constructor
      · rintro ⟨d, hd, h⟩
        exact ⟨d, hd, (below_tell (hsib d hd)).mp h⟩
      · rintro ⟨d, hd, h⟩
        exact ⟨d, hd, (below_tell (hsib d hd)).mpr h⟩
    rw [List.foldl_cons, ih (hl.tell c) (List.nodup_cons.mp hn).2 hsub]
    simp only [hiff, List.exists_mem_cons_iff]
    by_cases hxc : Below s.parent c x
    · have hxl : ¬ ∃ d ∈ l, Below s.parent d x := fun ⟨d, hd, h⟩ => hsib d hd x h hxc
      rw [if_neg hxl, if_pos (Or.inl hxc), tell_below hxc]
      simp [shut]
    · rw [tell_other hxc]
      by_cases hxl : ∃ d ∈ l, Below s.parent d x
      · rw [if_pos hxl, if_pos (Or.inr hxl)]
        rfl
      · rw [if_neg hxl, if_neg (not_or.mpr ⟨hxc, hxl⟩)]
        simp

theorem head_nextIn (l : List ℕ) : nextIn (c :: l) c = l.head? := by
  simp [nextIn]

/-! ## `note_notify_child` -/

/-- A change that leaves the links of the notes alone. -/
structure SameLinks (s s' : Heap τ) : Prop where
  parent : ∀ x, s'.parent x = s.parent x
  children : ∀ x, (s'.note x).children = (s.note x).children
  notes : s'.notes = s.notes

theorem SameLinks.parent_eq (h : SameLinks s s') : s'.parent = s.parent := funext h.parent

theorem SameLinks.linked (h : SameLinks s s') (hl : Linked s) : Linked s' := by
  constructor
  · intro p c
    rw [h.children, h.parent]
    exact hl.mem_iff p c
  · intro p
    rw [h.children]
    exact hl.nodup p
  · intro c p hc
    exact hl.lt c p (h.parent c ▸ hc)
  · intro c p hc
    rw [h.notes]
    exact hl.used c p (h.parent c ▸ hc)

theorem sameLinks_set {x : Note Unit τ} (hp : x.parent = (s.note n).parent)
    (hc : x.children = (s.note n).children) : SameLinks s (s.set n x) := by
  refine ⟨fun y => ?_, fun y => ?_, rfl⟩
  · by_cases h : y = n
    · subst h
      simpa [Heap.parent] using hp
    · simp [Heap.parent, h]
  · by_cases h : y = n
    · subst h
      simpa using hc
    · simp [h]

theorem lock_of_free (h : (s.note n).noteMu = none) :
    lock s n = some (s.set n { s.note n with noteMu := some () }) := if_pos h

/-- The mutex of a note that is told is the same afterwards. -/
theorem unlock_tell_lock (h : (s.note n).noteMu = none) :
    unlock (tell (s.set n { s.note n with noteMu := some () }) n) n = tell s n := by
  have hs : SameLinks s (s.set n { s.note n with noteMu := some () }) := sameLinks_set rfl rfl
  ext1
  · funext x
    by_cases hx : x = n
    · subst hx
      rw [tell_below Below.refl]
      simp [unlock, tell_below Below.refl, shut, ← h]
    · have hset : ((s.set n { s.note n with noteMu := some () }).note x) = s.note x := by simp [hx]
      rw [show (unlock (tell (s.set n { s.note n with noteMu := some () }) n) n).note x =
        (tell (s.set n { s.note n with noteMu := some () }) n).note x by simp [unlock, hx]]
      by_cases hb : Below s.parent n x
      · rw [tell_below hb, tell_below (hs.parent_eq ▸ hb), hset]
      · rw [tell_other hb, tell_other (hs.parent_eq ▸ hb), hset]
  · rfl

theorem foldl_tell_notes (l : List ℕ) (s : Heap τ) : (l.foldl tell s).notes = s.notes := by
  induction l generalizing s with
  | nil => rfl
  | cons c l ih => exact ih (tell s c)

open Classical in
/-- All children of `n` are told, one after the other. -/
theorem foldl_tell_children (hl : Linked s) (n x : ℕ) :
    ((s.note n).children.foldl tell s).note x =
      if ∃ c ∈ (s.note n).children, Below s.parent c x then shut (s.note x)
      else if x = n then { s.note n with children := [] } else s.note x := by
  rw [foldl_tell hl (hl.nodup n) (fun _ h => h), (hl.nodup x).sdiff_eq_filter]
  split
  · rfl
  · split
    case _ hxn =>
      subst hxn
      simp
    case _ hxn =>
      have hkept : (s.note x).children.filter (· ∉ (s.note n).children) = (s.note x).children := by
        apply List.filter_eq_self.mpr
        intro c hc
        simp only [decide_eq_true_eq]
        intro hcn
        have hp := (hl.mem_iff n c).mp hcn
        rw [(hl.mem_iff x c).mp hc] at hp
        exact hxn (Option.some.inj hp)
      rw [hkept]

/-- The note `x` as `tell s n` has it, if it is neither below `n` nor its parent. -/
theorem tell_far (hl : Linked s) (hb : ¬ Below s.parent n x) (hp : s.parent n ≠ some x) :
    (tell s n).note x = s.note x := by
  have hn : n ∉ (s.note x).children := fun h => hp ((hl.mem_iff x n).mp h)
  rw [tell_other hb, List.erase_of_not_mem hn]

/-- After its children have been told, a note that is notified itself only has to be
cut off from its parent. -/
theorem detach_foldl_tell (hl : Linked s) :
    detach ((s.note n).children.foldl tell
      (s.set n { s.note n with notified := true, waiters := [] })) n (s.parent n) = tell s n := by
  classical
  set u := s.set n { s.note n with notified := true, waiters := [] } with hu
  have hs : SameLinks s u := sameLinks_set rfl rfl
  have hnote := foldl_tell_children (hs.linked hl) n
  rw [hs.children, hs.parent_eq] at hnote
  have hself : ¬ ∃ c ∈ (s.note n).children, Below s.parent c n := by
    rintro ⟨c, hc, hb⟩
    exact hl.not_below hc hb
  have hn : ((s.note n).children.foldl tell u).note n =
      { s.note n with notified := true, waiters := [], children := [] } := by
    rw [hnote, if_neg hself]
    simp [hu]
  have hx : ∀ x, x ≠ n → ((s.note n).children.foldl tell u).note x =
      if Below s.parent n x then shut (s.note x) else s.note x := by
    intro x hx
    have hiff : (∃ c ∈ (s.note n).children, Below s.parent c x) ↔ Below s.parent n x := by
      constructor
      · rintro ⟨c, hc, h⟩
        exact (Below.of_parent ((hl.mem_iff n c).mp hc)).trans h
      · intro h
        rcases h.eq_or_child with heq | ⟨c, hc, h⟩
        · exact (hx heq).elim
        · exact ⟨c, (hl.mem_iff n c).mpr hc, h⟩
    rw [hnote]
    simp [hiff, hx, hu]
  ext1
  · funext x
    cases hp : s.parent n with
    | none =>
      by_cases hxn : x = n
      · subst hxn
        rw [tell_below Below.refl, detach, hn, shut]
        simp only [Heap.parent] at hp
        simp [hp]
      · rw [detach, hx x hxn]
        split
        · rw [tell_below ‹_›]
        · rw [tell_far hl ‹_› (by simp [hp])]
    | some p =>
      have hpn : p ≠ n := (hl.lt n p hp).ne
      have hpb : ¬ Below s.parent n p := fun h => (hl.lt n p hp).not_ge (h.le hl.lt)
      by_cases hxn : x = n
      · subst hxn
        simp [detach, hn, hpn.symm, tell_below Below.refl, shut]
      · by_cases hxp : x = p
        · subst hxp
          simp [detach, hpn, hx x hpn, hpb, tell_other hpb]
        · have hfar : (detach ((s.note n).children.foldl tell u) n (some p)).note x =
              ((s.note n).children.foldl tell u).note x := by simp [detach, hxn, hxp]
          rw [hfar, hx x hxn]
          split
          · rw [tell_below ‹_›]
          · rw [tell_far hl ‹_› (by rw [hp]; exact fun h => hxp (Option.some.inj h).symm)]
  · cases s.parent n <;> simp [detach, foldl_tell_notes, hu]

theorem Open.of_note_eq (h : Open s x) (hm : (s'.note x).noteMu = (s.note x).noteMu)
    (hd : (s'.note x).disconnecting = (s.note x).disconnecting)
    (ht : (s'.note x).notifiedTime = (s.note x).notifiedTime) : Open s' x :=
  ⟨hm.trans h.mu, hd.trans h.connected, ht ▸ h.pending⟩

/-- The two functions do what `tell` says, if their recursion may be as deep as the
numbers of the notes allow: a child has a greater number than its parent. -/
theorem notifyChild_and_loop (k : ℕ) :
    (∀ (s : Heap τ) (n : ℕ), Linked s → 0 < (s.note n).notifiedTime →
      (∀ x, Below s.parent n x → x ≠ n → Open s x) →
      (s.notes + 1) * (s.notes - n + 1) ≤ k →
      noteNotifyChild k s n (s.parent n) = some (tell s n)) ∧
    (∀ (s : Heap τ) (n : ℕ) (l : List ℕ), Linked s → (s.note n).children = l →
      (∀ c ∈ l, ∀ x, Below s.parent c x → Open s x) →
      l.length + (s.notes + 1) * (s.notes - n) ≤ k →
      notifyChildren k s n l.head? = some (l.foldl tell s)) := by
  induction k with
  | zero =>
    refine ⟨fun s n _ _ _ hk => ?_, fun s n l _ _ _ hk => ?_⟩
    · exact absurd hk (by simp)
    · have hl : l = [] := List.length_eq_zero_iff.mp (by omega)
      subst hl
      rfl
  | succ k ih =>
    obtain ⟨ihc, ihl⟩ := ih
    constructor
    · intro s n hl ht ho hk
      set u := s.set n { s.note n with notified := true, waiters := [] } with hu
      have hs : SameLinks s u := sameLinks_set rfl rfl
      have hset : (s.set n { s.note n with notified := true }).set n
          { (s.set n { s.note n with notified := true }).note n with waiters := [] } = u := by
        ext1 <;> simp [hu, Heap.set]
      have hloop : notifyChildren k u n (s.note n).children.head? =
          some ((s.note n).children.foldl tell u) := by
        refine ihl u n _ (hs.linked hl) (hs.children n) ?_ ?_
        · intro c hc x hx
          rw [hs.parent_eq] at hx
          have hcn := (hl.mem_iff n c).mp hc
          have hxn : x ≠ n := ((hl.lt c n hcn).trans_le (hx.le hl.lt)).ne'
          refine (ho x ((Below.of_parent hcn).trans hx) hxn).of_note_eq ?_ ?_ ?_ <;>
            simp [hu, hxn]
        · have := hl.length_le n
          rw [hs.notes]
          have hmul : (s.notes + 1) * (s.notes - n + 1) =
            (s.notes + 1) * (s.notes - n) + (s.notes + 1) := by ring
          omega
      have hnone : waitForNoChildren ((s.note n).children.foldl tell u) n =
          some ((s.note n).children.foldl tell u) := by
        refine if_pos ?_
        have hself : ¬ ∃ c ∈ (u.note n).children, Below u.parent c n := by
          rintro ⟨c, hc, hb⟩
          exact (hs.linked hl).not_below hc hb
        classical
        rw [← hs.children, foldl_tell_children (hs.linked hl), if_neg hself, if_pos rfl]
      have hbody : noteNotifyChild (k + 1) s n (s.parent n) =
          (notifyChildren k u n (u.note n).children.head?).bind fun v =>
            (waitForNoChildren v n).bind fun v => some (detach v n (s.parent n)) := by
        rw [noteNotifyChild, if_pos ht, ← hset]
        rfl
      rw [hbody, hs.children, hloop, Option.bind_some, hnone, Option.bind_some,
        detach_foldl_tell hl]
    · intro s n l hl hc ho hk
      cases l with
      | nil => rfl
      | cons c l =>
        have hmem : c ∈ (s.note n).children := hc ▸ List.mem_cons_self
        have hcn : s.parent c = some n := (hl.mem_iff n c).mp hmem
        have hoc := ho c List.mem_cons_self c Below.refl
        have hlt := hl.lt c n hcn
        have hused := hl.used c n hcn
        set u := s.set c { s.note c with noteMu := some () } with hu
        have hs : SameLinks s u := sameLinks_set rfl rfl
        have hchild : noteNotifyChild k u c (some n) = some (tell u c) := by
          rw [← hcn, ← hs.parent]
          refine ihc u c (hs.linked hl) ?_ ?_ ?_
          · have hpend := hoc.pending
            simpa [hu, Note.notifiedTime] using hpend
          · intro x hx hxc
            rw [hs.parent_eq] at hx
            refine (ho c List.mem_cons_self x hx).of_note_eq ?_ ?_ ?_ <;> simp [hu, hxc]
          · rw [hs.notes]
            have hle : s.notes - c + 1 ≤ s.notes - n := by omega
            have hmul := Nat.mul_le_mul_left (s.notes + 1) hle
            simp only [List.length_cons] at hk
            omega
        have hrest : notifyChildren k (tell s c) n l.head? = some (l.foldl tell (tell s c)) := by
          have hnd : (c :: l).Nodup := hc ▸ hl.nodup n
          refine ihl (tell s c) n l (hl.tell c) ?_ ?_ ?_
          · rw [tell_other (hl.not_below hmem), hc]
            simp
          · intro d hd x hx
            have hdc : d ≠ c := fun h => (List.nodup_cons.mp hnd).1 (h ▸ hd)
            have hdm : d ∈ (s.note n).children := hc ▸ List.mem_cons_of_mem c hd
            rw [below_tell fun y hy => hl.siblings hmem hdm hdc.symm hy] at hx
            have hxc := hl.siblings hmem hdm hdc.symm hx
            refine (ho d (List.mem_cons_of_mem c hd) x hx).of_note_eq ?_ ?_ ?_ <;>
              rw [tell_other hxc]
            rfl
          · simp only [List.length_cons] at hk
            rw [tell_notes]
            omega
        have hconn : (u.note c).disconnecting = 0 := by simpa [hu] using hoc.connected
        have hunlock : unlock (tell u c) c = tell s c := unlock_tell_lock hoc.mu
        rw [List.head?_cons, notifyChildren, lock_of_free hoc.mu, Option.bind_eq_bind,
          Option.bind_some, ← hu, if_pos hconn, hchild, Option.bind_some]
        change notifyChildren k (unlock (tell u c) c) n (nextIn (s.note n).children c) = _
        rw [hunlock, hc, head_nextIn, hrest]
        rfl

end Nsync.Note
