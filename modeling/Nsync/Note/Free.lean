import Nsync.Note.Effect

/-!
# Freeing a note

The children of a note that is freed become children of its parent, after those that
the parent has.  With this the effect of every call is known, and every call from
notes that satisfy the invariant returns and keeps it.
-/

set_option linter.unusedSectionVars false

namespace Nsync.Note

open Nsync.Lib
open Nsync.Wait (Note nextIn)

variable {τ : Type} [LinearOrder τ] [OrderTop τ] [Zero τ] {s s' : Heap τ} {n p c x k : ℕ}
  {q : Option ℕ} {m : ℕ → Option Unit} {d : ℕ → ℕ}

/-! ## The loop over the children -/

theorem adopt_note (hcn : c ≠ n) (hqn : q ≠ some n) (hqc : q ≠ some c) (x : ℕ) :
    (adopt s n c q).note x =
      if x = n then { s.note n with children := (s.note n).children.erase c }
      else { s.note x with
        parent := if x = c then q else (s.note x).parent
        children := (s.note x).children ++ if q = some x then [c] else [] } := by
  cases q with
  | none =>
    rcases eq_or_ne x n with rfl | hxn
    · simp [adopt, hcn.symm]
    · rcases eq_or_ne x c with rfl | hxc
      · simp [adopt, hxn]
      · simp [adopt, hxn, hxc]
  | some p =>
    have hpn : p ≠ n := fun h => hqn (h ▸ rfl)
    have hpc : p ≠ c := fun h => hqc (h ▸ rfl)
    rcases eq_or_ne x n with rfl | hxn
    · simp [adopt, hcn.symm, hpn.symm]
    · rcases eq_or_ne x c with rfl | hxc
      · simp [adopt, hxn, hpc, hpc.symm]
      · rcases eq_or_ne x p with rfl | hxp
        · simp [adopt, hxn, hxc]
        · simp [adopt, hxn, hxc, hxp, hxp.symm]

@[simp] theorem adopt_notes : (adopt s n c q).notes = s.notes := by
  cases q <;> rfl

theorem adopt_dress (hcn : c ≠ n) (hqn : q ≠ some n) (hqc : q ≠ some c) :
    adopt (s.dress m d) n c q = (adopt s n c q).dress m d := by
  ext1
  · funext x
    rw [adopt_note hcn hqn hqc]
    simp only [Heap.dress, adopt_note hcn hqn hqc]
    split
    case isTrue h => rw [h]
    case isFalse => rfl
  · simp

/-- All children of `n` are adopted, one after the other. -/
def adoptAll (s : Heap τ) (n : ℕ) (q : Option ℕ) (l : List ℕ) : Heap τ :=
  l.foldl (fun v c => adopt v n c q) s

@[simp] theorem adoptAll_notes (l : List ℕ) (s : Heap τ) : (adoptAll s n q l).notes = s.notes := by
  induction l generalizing s with
  | nil => rfl
  | cons c l ih => exact (ih _).trans adopt_notes

/-- The list of the children of `n`, which are other notes than `n` and its parent. -/
structure Kids (s : Heap τ) (n : ℕ) (q : Option ℕ) (l : List ℕ) : Prop where
  children : (s.note n).children = l
  nodup : l.Nodup
  not_self : n ∉ l
  not_parent : ∀ p, q = some p → p ∉ l
  parent_ne : q ≠ some n

theorem Kids.cons {l : List ℕ} (hk : Kids s n q (c :: l)) :
    c ≠ n ∧ q ≠ some c ∧ c ∉ l ∧ Kids (adopt s n c q) n q l := by
  have hcn : c ≠ n := fun h => hk.not_self (h ▸ List.mem_cons_self)
  have hqc : q ≠ some c := fun h => hk.not_parent c h List.mem_cons_self
  refine ⟨hcn, hqc, (List.nodup_cons.mp hk.nodup).1, ?_, (List.nodup_cons.mp hk.nodup).2, ?_, ?_,
    hk.parent_ne⟩
  · rw [adopt_note hcn hk.parent_ne hqc, if_pos rfl, hk.children]
    simp
  · exact fun h => hk.not_self (List.mem_cons_of_mem c h)
  · exact fun p hp h => hk.not_parent p hp (List.mem_cons_of_mem c h)

theorem adoptAll_note {l : List ℕ} (hk : Kids s n q l) (x : ℕ) :
    (adoptAll s n q l).note x =
      if x = n then { s.note n with children := [] }
      else { s.note x with
        parent := if x ∈ l then q else s.parent x
        children := (s.note x).children ++ if q = some x then l else [] } := by
  simp only [Heap.parent]
  induction l generalizing s with
  | nil =>
    have hnil := hk.children
    simp only [adoptAll, List.foldl_nil]
    split
    case isTrue h => rw [h, ← hnil]
    case isFalse => simp
  | cons c l ih =>
    obtain ⟨hcn, hqc, hcl, hk'⟩ := hk.cons
    have hfold : adoptAll s n q (c :: l) = adoptAll (adopt s n c q) n q l := rfl
    rw [hfold, ih hk']
    simp only [adopt_note hcn hk.parent_ne hqc]
    split
    · rfl
    · have happ : ((s.note x).children ++ if q = some x then [c] else []) ++
          (if q = some x then l else []) = (s.note x).children ++ if q = some x then c :: l else [] := by
        split <;> simp
      rw [happ]
      by_cases hxc : x = c
      · subst hxc
        simp [hcl]
      · simp [hxc]

theorem adoptChildren_eq {l : List ℕ} (hk : Kids s n q l) (hm : ∀ c ∈ l, m c = none)
    (hd : ∀ c ∈ l, d c = 0) (hlen : l.length ≤ k) :
    adoptChildren k (s.dress m d) n q l.head? = some ((adoptAll s n q l).dress m d) := by
  induction l generalizing s k with
  | nil => cases k <;> rfl
  | cons c l ih =>
    obtain ⟨hcn, hqc, hcl, hk'⟩ := hk.cons
    obtain ⟨k, rfl⟩ : ∃ j, k = j + 1 := ⟨k - 1, by simp at hlen; omega⟩
    have hmc := hm c List.mem_cons_self
    have hagain : Function.update (Function.update m c (some ())) c none = m := by
      funext y
      by_cases hy : y = c
      · simp [hy, hmc]
      · simp [hy]
    have hconn : ((s.dress (Function.update m c (some ())) d).note c).disconnecting = 0 :=
      hd c List.mem_cons_self
    have hrest := ih hk' (fun x hx => hm x (List.mem_cons_of_mem c hx))
      (fun x hx => hd x (List.mem_cons_of_mem c hx)) (k := k) (by simpa using hlen)
    simp only [List.head?_cons, adoptChildren, lock_dress hmc, Option.bind_eq_bind,
      Option.bind_some, if_pos hconn, adopt_dress hcn hk.parent_ne hqc, unlock_dress, hagain,
      dress_children, hk.children, head_nextIn, hrest]
    rfl

/-! ## `nsync_note_free` -/

/-- The notes after `n` has been freed. -/
def release (s : Heap τ) (n : ℕ) : Heap τ :=
  { s with note := fun x =>
      if x = n then { s.note n with parent := none, children := [], freed := true }
      else { s.note x with
        parent := if s.parent x = some n then s.parent n else s.parent x
        children := if s.parent n = some x then
            ((s.note x).children ++ (s.note n).children).erase n
          else (s.note x).children } }

theorem Inv.kids (hi : Inv s) (n : ℕ) : Kids s n (s.parent n) (s.note n).children := by
  refine ⟨rfl, hi.nodup n, ?_, ?_, ?_⟩
  · intro h
    exact lt_irrefl n (hi.lt n n ((hi.mem_iff n n).mp h))
  · intro p hp h
    exact lt_asymm (hi.lt n p hp) (hi.lt p n ((hi.mem_iff n p).mp h))
  · intro h
    exact lt_irrefl n (hi.lt n n h)

theorem detach_dress : detach (s.dress m d) n q = (detach s n q).dress m d := by
  cases q with
  | none => rfl
  | some p =>
    ext1
    · funext x
      rcases eq_or_ne x n with rfl | hxn
      · rcases eq_or_ne x p with rfl | hxp
        · simp [detach, Heap.dress]
        · simp [detach, Heap.dress, hxp]
      · rcases eq_or_ne x p with rfl | hxp
        · simp [detach, Heap.dress, hxn]
        · simp [detach, Heap.dress, hxn, hxp]
    · rfl

/-- After the children have been adopted, the note is cut off and freed. -/
theorem detach_adoptAll (hi : Inv s) (n : ℕ) (x : ℕ) :
    (detach (adoptAll s n (s.parent n) (s.note n).children) n (s.parent n)).note x =
      { (release s n).note x with freed := (s.note x).freed } := by
  have hnote := adoptAll_note (hi.kids n)
  have hmem : ∀ y, (y ∈ (s.note n).children) = (s.parent y = some n) :=
    fun y => propext (hi.mem_iff n y)
  simp only [hmem] at hnote
  cases hp : s.parent n with
  | none =>
    simp only [hp] at hnote
    rcases eq_or_ne x n with rfl | hxn
    · have hp' : (s.note x).parent = none := hp
      simp [detach, hnote, release, hp']
    · simp [detach, hnote, release, hp, hxn]
  | some p =>
    have hpn : p ≠ n := hi.parent_ne p hp
    simp only [hp] at hnote
    rcases eq_or_ne x n with rfl | hxn
    · simp [detach, hnote, release, hpn.symm]
    · rcases eq_or_ne x p with rfl | hxp
      · simp [detach, hnote, release, hp, hxn]
      · simp [detach, hnote, release, hp, hxn, hxp, hxp.symm]

theorem noteFree_eq (hi : Inv s) (n : ℕ) : noteFree s n = some (release s n) := by
  have hbegin := begin_idle hi n
  rw [lock_idle hi.toIdle, Option.bind_some, incrDisconnecting_dress] at hbegin
  have hk := hi.kids n
  have hne : ∀ c ∈ (s.note n).children, c ≠ n := by
    rintro c hc rfl
    exact hk.not_self hc
  have hloop : adoptChildren s.notes (s.dress (heldMu n (s.parent n)) (oneLeaving n)) n (s.parent n)
      (s.note n).children.head? = some ((adoptAll s n (s.parent n) (s.note n).children).dress
        (heldMu n (s.parent n)) (oneLeaving n)) := by
    refine adoptChildren_eq hk (fun c hc => ?_) (fun c hc => ?_) (hi.toLinked.length_le n)
    · exact heldMu_other (hne c hc) (fun h => hk.not_parent c h hc)
    · simp [oneLeaving, hne c hc]
  have hnone : ((adoptAll s n (s.parent n) (s.note n).children).note n).children = [] := by
    rw [adoptAll_note hk, if_pos rfl]
  have hwait : waitForNoChildren ((adoptAll s n (s.parent n) (s.note n).children).dress
      (heldMu n (s.parent n)) (oneLeaving n)) n = some _ := if_pos hnone
  have hwaiters : ((s.dress (Function.update (fun _ => none) n (some ()))
      (Function.update (fun _ => 0) n (0 + 1))).note n).waiters = [] := hi.waiters n
  simp only [noteFree, lock_idle hi.toIdle, Option.bind_eq_bind, Option.bind_some,
    incrDisconnecting_dress, if_pos hwaiters, dress_parent, hbegin, dress_notes, dress_children,
    hloop, hwait, detach_dress, finish_dress]
  congr 1
  ext1
  · funext x
    rcases eq_or_ne x n with rfl | hxn
    · simp [Heap.dress, detach_adoptAll hi, release, hi.mu, hi.connected]
    · simp [Heap.dress, detach_adoptAll hi, release, hi.mu, hi.connected, hxn]
  · cases s.parent n <;> simp [Heap.dress, detach, release]

/-! ## The invariant -/

theorem Inv.tell (hi : Inv s) (n : ℕ) : Inv (tell s n) := by
  have hedge : ∀ {c p}, (Note.tell s n).parent c = some p →
      ¬ Below s.parent n c ∧ ¬ Below s.parent n p ∧ s.parent c = some p := by
    intro c p h
    obtain ⟨hc, hn⟩ := parent_of_tell h
    exact ⟨hn, fun hp => hn (hp.child hc), hc⟩
  refine ⟨hi.toLinked.tell n, tell_idle hi.toIdle n, fun x => ?_, fun x hx => ?_, fun c p h => ?_,
    fun c p h => ?_, fun c p h => ?_⟩
  · by_cases hx : Below s.parent n x
    · rw [tell_below hx]
      rfl
    · rw [tell_other hx]
      exact hi.waiters x
  · by_cases hb : Below s.parent n x
    · rw [tell_below hb]
      exact hi.valid x hx
    · rw [tell_other hb]
      exact hi.valid x hx
  all_goals
    obtain ⟨hc, hp, hcp⟩ := hedge h
  · rw [tell_other hc, tell_other hp]
    exact hi.pending c p hcp
  · rw [tell_other hc, tell_other hp]
    exact hi.unfreed c p hcp
  · rw [noteExpiry, noteExpiry, tell_other hc, tell_other hp]
    exact hi.expiry_le c p hcp

theorem release_self : (release s n).note n =
    { s.note n with parent := none, children := [], freed := true } := by
  simp [release]

theorem release_other (hx : x ≠ n) : (release s n).note x = { s.note x with
    parent := if s.parent x = some n then s.parent n else s.parent x
    children := if s.parent n = some x then ((s.note x).children ++ (s.note n).children).erase n
      else (s.note x).children } := by
  simp [release, hx]

/-- The links after a note has been freed: the old ones, and those that are adopted. -/
theorem release_edge (h : (release s n).parent c = some p) :
    c ≠ n ∧ ((s.parent c = some n ∧ s.parent n = some p) ∨
      (s.parent c ≠ some n ∧ s.parent c = some p)) := by
  have hcn : c ≠ n := by
    rintro rfl
    rw [Heap.parent, release_self] at h
    cases h
  refine ⟨hcn, ?_⟩
  rw [Heap.parent, release_other hcn] at h
  by_cases hc : s.parent c = some n
  · exact Or.inl ⟨hc, by simpa [hc] using h⟩
  · exact Or.inr ⟨hc, by simpa [hc] using h⟩

/-- The children of two notes are different. -/
theorem Linked.nodup_append (hl : Linked s) (hpn : p ≠ n) :
    ((s.note p).children ++ (s.note n).children).Nodup := by
  refine List.nodup_append.mpr ⟨hl.nodup p, hl.nodup n, ?_⟩
  rintro x hx y hy rfl
  have hp := (hl.mem_iff p x).mp hx
  rw [(hl.mem_iff n x).mp hy] at hp
  exact hpn (Option.some.inj hp).symm

theorem Inv.release_mem_iff (hi : Inv s) (n p c : ℕ) :
    c ∈ ((release s n).note p).children ↔ (release s n).parent c = some p := by
  rcases eq_or_ne p n with rfl | hpn
  · rw [release_self]
    refine ⟨fun h => absurd h List.not_mem_nil, fun h => ?_⟩
    rcases release_edge h with ⟨-, ⟨-, hp⟩ | ⟨hne, hc⟩⟩
    · exact absurd (hi.lt p p hp) (lt_irrefl p)
    · exact absurd hc hne
  · rcases eq_or_ne c n with rfl | hcn
    · have hnone : (release s c).parent c ≠ some p := fun h => (release_edge h).1 rfl
      refine ⟨fun h => ?_, fun h => absurd h hnone⟩
      rw [release_other hpn] at h
      by_cases hp : s.parent c = some p
      · rw [if_pos hp] at h
        exact absurd h (hi.toLinked.nodup_append hpn).not_mem_erase
      · rw [if_neg hp, hi.mem_iff] at h
        exact absurd h hp
    · rw [Heap.parent, release_other hpn, release_other hcn]
      by_cases hp : s.parent n = some p
      · rw [if_pos hp, List.mem_erase_of_ne hcn, List.mem_append, hi.mem_iff, hi.mem_iff]
        by_cases hc : s.parent c = some n <;> simp [hc, hp, hpn.symm]
      · rw [if_neg hp, hi.mem_iff]
        by_cases hc : s.parent c = some n
        · simp [hc, hp, hpn.symm]
        · simp [hc]

/-- The fields of a note that freeing another one keeps. -/
theorem release_fields (hx : x ≠ n) :
    ((release s n).note x).notifiedTime = (s.note x).notifiedTime ∧
      ((release s n).note x).freed = (s.note x).freed := by
  rw [release_other hx]
  exact ⟨rfl, rfl⟩

@[simp] theorem noteExpiry_release (s : Heap τ) (n x : ℕ) :
    noteExpiry (release s n) x = noteExpiry s x := by
  rcases eq_or_ne x n with rfl | hx
  · rw [noteExpiry, release_self, noteExpiry]
  · rw [noteExpiry, release_other hx, noteExpiry]

theorem Inv.release (hi : Inv s) (n : ℕ) : Inv (release s n) := by
  have hedge : ∀ {c p}, (Note.release s n).parent c = some p → c ≠ n ∧ p ≠ n ∧ p < c ∧
      c < s.notes ∧ (0 < (s.note c).notifiedTime ∧ 0 < (s.note p).notifiedTime) ∧
      ((s.note c).freed = false ∧ (s.note p).freed = false) ∧ noteExpiry s c ≤ noteExpiry s p := by
    intro c p h
    rcases release_edge h with ⟨hcn, ⟨hc, hp⟩ | ⟨hne, hc⟩⟩
    · exact ⟨hcn, hi.parent_ne p hp, (hi.lt n p hp).trans (hi.lt c n hc), hi.used c n hc,
        ⟨(hi.pending c n hc).1, (hi.pending n p hp).2⟩,
        ⟨(hi.unfreed c n hc).1, (hi.unfreed n p hp).2⟩,
        (hi.expiry_le c n hc).trans (hi.expiry_le n p hp)⟩
    · have hpn : p ≠ n := fun hp => hne (hp ▸ hc)
      exact ⟨hcn, hpn, hi.lt c p hc, hi.used c p hc, hi.pending c p hc, hi.unfreed c p hc,
        hi.expiry_le c p hc⟩
  refine ⟨⟨hi.release_mem_iff n, fun p => ?_, fun c p h => (hedge h).2.2.1,
    fun c p h => (hedge h).2.2.2.1⟩, ⟨fun x => ?_, fun x => ?_⟩, fun x => ?_, fun x hx => ?_,
    fun c p h => ?_, fun c p h => ?_, fun c p h => ?_⟩
  · rcases eq_or_ne p n with rfl | hpn
    · rw [release_self]
      exact List.nodup_nil
    · rw [release_other hpn]
      by_cases hp : s.parent n = some p
      · simpa only [hp, if_true] using (hi.toLinked.nodup_append hpn).erase n
      · simpa only [hp, if_false] using hi.nodup p
  · rcases eq_or_ne x n with rfl | hxn
    · rw [release_self]
      exact hi.mu x
    · rw [release_other hxn]
      exact hi.mu x
  · rcases eq_or_ne x n with rfl | hxn
    · rw [release_self]
      exact hi.connected x
    · rw [release_other hxn]
      exact hi.connected x
  · rcases eq_or_ne x n with rfl | hxn
    · rw [release_self]
      exact hi.waiters x
    · rw [release_other hxn]
      exact hi.waiters x
  · rcases eq_or_ne x n with rfl | hxn
    · rw [release_self]
      exact hi.valid x hx
    · rw [release_other hxn]
      exact hi.valid x hx
  all_goals
    obtain ⟨hcn, hpn, -, -, hpend, hfreed, hle⟩ := hedge h
  · rw [(release_fields hcn).1, (release_fields hpn).1]
    exact hpend
  · rw [(release_fields hcn).2, (release_fields hpn).2]
    exact hfreed
  · rw [noteExpiry_release, noteExpiry_release]
    exact hle

/-! ## Runs -/

/-- The notes after a call. -/
noncomputable def after (s : Heap τ) (c : Call τ) (now : τ) : Heap τ :=
  match c with
  | .new parent a true => born s parent a now
  | .new _ _ false => s
  | .notify n => if 0 < (s.note n).notifiedTime then tell s n else s
  | .isNotified n => expire s n now
  | .free n => release s n

/-- What a call returns. -/
def answer (s : Heap τ) (c : Call τ) (now : τ) : Val :=
  match c with
  | .new _ _ true => .note (some s.notes)
  | .new _ _ false => .note none
  | .notify _ => .unit
  | .isNotified n => .bool (s.Heard n now)
  | .free _ => .unit

/-- Every call returns. -/
theorem call_eq (hi : Inv s) {c : Call τ} (hc : ∀ n ∈ c.notes, s.Live n) (now : τ) :
    call s c now = some (after s c now, answer s c now) := by
  cases c with
  | new parent a ok =>
    cases ok with
    | true =>
      have hp : ∀ q, parent = some q → s.Live q := fun q hq => hc q (by simp [Call.notes, hq])
      simp [call, noteNew_eq hi hp, after, answer]
    | false => simp [call, noteNew, after, answer]
  | notify n => simp [call, noteNotify_eq hi, after, answer]
  | isNotified n => simp [call, noteIsNotified_eq hi, after, answer]
  | free n => simp [call, noteFree_eq hi, after, answer]

theorem Inv.expire (hi : Inv s) (n : ℕ) (now : τ) : Inv (expire s n now) := by
  unfold Note.expire
  split
  · exact hi.tell n
  · exact hi

theorem Inv.after (hi : Inv s) {c : Call τ} (hc : ∀ n ∈ c.notes, s.Live n) (now : τ) :
    Inv (after s c now) := by
  cases c with
  | new parent a ok =>
    cases ok with
    | true => exact hi.born fun q hq => hc q (by simp [Call.notes, hq])
    | false => exact hi
  | notify n =>
    change Inv (if _ then _ else _)
    split
    · exact hi.tell n
    · exact hi
  | isNotified n => exact hi.expire n now
  | free n => exact hi.release n

theorem inv_initial : Inv (Heap.initial : Heap τ) := by
  have hnone : ∀ c p, (Heap.initial : Heap τ).parent c ≠ some p := by
    intro c p h
    cases h
  refine ⟨⟨fun p c => ?_, fun p => List.nodup_nil, fun c p h => absurd h (hnone c p),
    fun c p h => absurd h (hnone c p)⟩, ⟨fun _ => rfl, fun _ => rfl⟩, fun _ => rfl,
    fun x hx => absurd hx (Nat.not_lt_zero x), fun c p h => absurd h (hnone c p),
    fun c p h => absurd h (hnone c p), fun c p h => absurd h (hnone c p)⟩
  exact iff_of_false List.not_mem_nil (hnone c p)

theorem Run.inv {es : List (Event τ)} (h : Run es s) : Inv s := by
  induction h with
  | nil => exact inv_initial
  | call _ live _ returns ih =>
    rw [call_eq ih live] at returns
    cases returns
    exact ih.after live _

end Nsync.Note
