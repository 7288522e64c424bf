import Nsync.Note.Expiry

/-!
# What sequences of calls on notes mean

The meaning of a sequence of calls is told without links, marks and lists: who the
parent of a note is, with the children of a freed note going to its parent, which
notes have been told, and when each note expires.  The notes of the code follow this
story although the code cuts the links of notified notes and notices expiry late.
-/

set_option linter.unusedSectionVars false

namespace Nsync.Note

open Nsync.Lib
open Nsync.Wait (Note)

variable {τ : Type} [LinearOrder τ] [OrderTop τ] [Zero τ] {s : Heap τ} {n m p x : ℕ}
  {now T : τ} {es : List (Event τ)}

/-! ## The story -/

/-- Who the parents of the notes are, which notes have been told, and the expiry times
that have been stored in the notes. -/
structure Story (τ : Type) where
  parent : ℕ → Option ℕ
  told : ℕ → Prop
  expiry : ℕ → τ

/-- A note is notified when it has been told or has expired. -/
def Story.Notified (st : Story τ) (n : ℕ) (now : τ) : Prop := st.told n ∨ st.expiry n ≤ now

/-- A new note is told at once if its parent is notified already.  Its expiry time is
the one that the call stores in it. -/
def Story.new (st : Story τ) (e : Event τ) (parent : Option ℕ) : Story τ :=
  let n := e.before.notes
  { parent := Function.update st.parent n parent
    told := Function.update st.told n (∃ p, parent = some p ∧ st.Notified p e.now)
    expiry := Function.update st.expiry n
      ((call e.before e.call e.now).elim 0 fun r => noteExpiry r.1 n) }

/-- The children of a note that is freed become those of its parent. -/
def Story.free (st : Story τ) (n : ℕ) : Story τ :=
  { st with parent := fun x =>
      if x = n then none
      else if st.parent x = some n then st.parent n
      else st.parent x }

def Story.step (st : Story τ) (e : Event τ) : Story τ :=
  match e.call with
  | .new parent _ true => st.new e parent
  | .new _ _ false => st
  | .notify n => { st with told := fun x => st.told x ∨ Below st.parent n x }
  | .isNotified _ => st
  | .free n => st.free n

def story (es : List (Event τ)) : Story τ :=
  es.foldl Story.step ⟨fun _ => none, fun _ => False, fun _ => 0⟩

theorem story_snoc (es : List (Event τ)) (e : Event τ) :
    story (es ++ [e]) = (story es).step e := by
  simp [story]

/-! ## The notes follow the story -/

/-- The notes `s` as the story `st` has them at the time `T`.  A link of the story may
be missing in the notes if the lower note counts as notified. -/
structure Tracks (st : Story τ) (s : Heap τ) (T : τ) : Prop where
  expiry : ∀ n < s.notes, st.expiry n = noteExpiry s n
  real : ∀ x p, s.parent x = some p → st.parent x = some p
  ghost : ∀ x p, st.parent x = some p → x < s.notes ∧ (s.parent x = some p ∨ s.Heard x T)
  told : ∀ x, st.told x → s.Heard x T
  marked : ∀ x, (s.note x).notified = true → st.told x ∨ noteExpiry s x ≤ T

theorem Heap.Heard.mono {T' : τ} (h : s.Heard n T) (hT : T ≤ T') : s.Heard n T' :=
  h.imp_right fun h => h.trans hT

theorem Tracks.mono {st : Story τ} {T' : τ} (ht : Tracks st s T) (hT : T ≤ T') : Tracks st s T' where
  expiry := ht.expiry
  real := ht.real
  ghost x p h := ⟨(ht.ghost x p h).1, (ht.ghost x p h).2.imp_right fun h => h.mono hT⟩
  told x h := (ht.told x h).mono hT
  marked x h := (ht.marked x h).imp_right fun h => h.trans hT

section

variable {st : Story τ}

theorem Inv.notifiedTime_eq (hi : Inv s) (h : s.parent x = some p) :
    (s.note x).notifiedTime = noteExpiry s x ∧ (s.note p).notifiedTime = noteExpiry s p := by
  obtain ⟨hx, hp⟩ := hi.pending x p h
  exact ⟨(notifiedTime_of_pending (hi.valid x (hi.used x p h)) hx).2,
    (notifiedTime_of_pending (hi.valid p (hi.parent_lt h)) hp).2⟩

/-- A note whose parent counts as notified does so as well. -/
theorem Tracks.heard_child (ht : Tracks st s T) (hi : Inv s) (h : st.parent x = some p)
    (hp : s.Heard p T) : s.Heard x T := by
  rcases (ht.ghost x p h).2 with hreal | hx
  · obtain ⟨hnx, hnp⟩ := hi.notifiedTime_eq hreal
    have hpT := hp.resolve_left (hi.pending x p hreal).2.not_ge
    refine Or.inr ?_
    rw [hnx]
    exact (hi.expiry_le x p hreal).trans (hnp ▸ hpT)
  · exact hx

theorem Tracks.heard_below (ht : Tracks st s T) (hi : Inv s) (h : Below st.parent m x)
    (hm : s.Heard m T) : s.Heard x T := by
  induction h with
  | refl => exact hm
  | tail _ hx ih => exact ht.heard_child hi hx ih

/-- Notes below `m` in the story are linked below it, or count as notified. -/
theorem Tracks.below_or_heard (ht : Tracks st s T) (hi : Inv s) (h : Below st.parent m x) :
    Below s.parent m x ∨ s.Heard x T := by
  induction h with
  | refl => exact Or.inl Below.refl
  | tail _ hx ih =>
    rcases ih with hb | hh
    · exact (ht.ghost _ _ hx).2.imp_left hb.child
    · exact Or.inr (ht.heard_child hi hx hh)

/-! ### Notification -/

theorem heard_of_below (h : Below s.parent m x) : (tell s m).Heard x T := by
  refine Or.inl (le_of_eq ?_)
  rw [tell_below h]
  rfl

theorem notifiedTime_tell_other (h : ¬ Below s.parent m x) :
    ((tell s m).note x).notifiedTime = (s.note x).notifiedTime := by
  rw [tell_other h]
  rfl

theorem Heap.Heard.tell (h : s.Heard x T) (m : ℕ) : (tell s m).Heard x T := by
  by_cases hb : Below s.parent m x
  · exact heard_of_below hb
  · rw [Heap.Heard, notifiedTime_tell_other hb]
    exact h

/-- The note `m` and those below it are told, and more notes may be so in the story. -/
theorem Tracks.tell (ht : Tracks st s T) {told' : ℕ → Prop} (hsub : ∀ x, st.told x → told' x)
    (htold : ∀ x, told' x → (Note.tell s m).Heard x T)
    (hmark : ∀ x, Below s.parent m x → told' x ∨ noteExpiry s x ≤ T) :
    Tracks { st with told := told' } (Note.tell s m) T where
  expiry n hn := (ht.expiry n hn).trans (noteExpiry_tell s m n).symm
  real x p h := ht.real x p (parent_of_tell h).1
  ghost x p h := by
    refine ⟨(ht.ghost x p h).1, ?_⟩
    rcases (ht.ghost x p h).2 with hreal | hx
    · by_cases hb : Below s.parent m x
      · exact Or.inr (heard_of_below hb)
      · refine Or.inl ?_
        rw [Heap.parent, tell_other hb]
        exact hreal
    · exact Or.inr (hx.tell m)
  told := htold
  marked x hx := by
    rw [noteExpiry_tell]
    by_cases hb : Below s.parent m x
    · exact hmark x hb
    · rw [tell_other hb] at hx
      exact (ht.marked x hx).imp_left (hsub x)

theorem Tracks.notify (ht : Tracks st s T) (hi : Inv s) (m : ℕ) :
    Tracks { st with told := fun x => st.told x ∨ Below st.parent m x }
      (if 0 < (s.note m).notifiedTime then Note.tell s m else s) T := by
  split
  case isTrue =>
    refine ht.tell (fun x hx => Or.inl hx) (fun x hx => ?_) (fun x hx => ?_)
    · rcases hx with hx | hx
      · exact (ht.told x hx).tell m
      · rcases ht.below_or_heard hi hx with hb | hh
        · exact heard_of_below hb
        · exact hh.tell m
    · exact Or.inl (Or.inr (hx.mono ht.real))
  case isFalse h0 =>
    refine ⟨ht.expiry, ht.real, ht.ghost, fun x hx => ?_, fun x hx => ?_⟩
    · rcases hx with hx | hx
      · exact ht.told x hx
      · exact ht.heard_below hi hx (Or.inl (not_lt.mp h0))
    · exact (ht.marked x hx).imp_left Or.inl

/-- A note expires no later than one that it is below. -/
theorem Inv.expiry_le_of_below (hi : Inv s) (h : Below s.parent m x) :
    noteExpiry s x ≤ noteExpiry s m := by
  induction h with
  | refl => exact le_rfl
  | tail _ hx ih => exact (hi.expiry_le _ _ hx).trans ih

theorem Tracks.expire (ht : Tracks st s T) (hi : Inv s) (hm : m < s.notes) :
    Tracks st (expire s m T) T := by
  unfold Note.expire
  split
  case isTrue h =>
    have hexp : noteExpiry s m ≤ T :=
      (notifiedTime_of_pending (hi.valid m hm) h.1).2.ge.trans h.2
    exact ht.tell (fun x hx => hx) (fun x hx => (ht.told x hx).tell m)
      fun x hx => Or.inr ((hi.expiry_le_of_below hx).trans hexp)
  case isFalse => exact ht

/-! ### Making and freeing -/

/-- The new note counts as notified if its deadline has passed or its parent does. -/
theorem born_heard {parent : Option ℕ} {a : τ}
    (h : (a ≤ 0 ∨ a ≤ T) ∨ ∃ p, parent = some p ∧ s.Heard p T) :
    (born s parent a T).Heard s.notes T := by
  rw [Heap.Heard, born_new]
  by_cases ha : a ≤ 0 ∨ a ≤ T
  · by_cases h0 : 0 < a
    · simp [Note.notifiedTime, h0, ha.resolve_left h0.not_ge]
    · exact Or.inl (by simpa [Note.notifiedTime, bornExpiry, ha, h0] using not_lt.mp h0)
  · obtain ⟨p, rfl, hp⟩ := h.resolve_left ha
    have hmark : decide (0 < a ∧ a ≤ T) = false := by
      simp only [decide_eq_false_iff_not]
      exact fun h => ha (Or.inr h.2)
    simp only [hmark, bornExpiry, if_neg ha]
    exact hp.imp (fun h => (min_le_right a _).trans h) (fun h => (min_le_right a _).trans h)

theorem Tracks.heard_of_notified (ht : Tracks st s T) (hi : Inv s) (hp : p < s.notes)
    (h : st.Notified p T) : s.Heard p T := by
  rcases h with h | h
  · exact ht.told p h
  · rw [ht.expiry p hp] at h
    by_cases h0 : 0 < (s.note p).notifiedTime
    · exact Or.inr ((notifiedTime_of_pending (hi.valid p hp) h0).2.le.trans h)
    · exact Or.inl (not_lt.mp h0)

theorem heard_born_old {parent : Option ℕ} {a : τ} (hx : x ≠ s.notes) :
    (born s parent a T).Heard x T ↔ s.Heard x T := by
  rw [Heap.Heard, born_old hx]
  rfl

theorem Tracks.new (ht : Tracks st s T) (hi : Inv s) {parent : Option ℕ} {a : τ}
    (live : ∀ n ∈ (Call.new parent a true).notes, s.Live n) :
    Tracks (st.new ⟨s, .new parent a true, T⟩ parent) (born s parent a T) T := by
  have hlive : ∀ q, parent = some q → s.Live q := fun q hq => live q (by simp [Call.notes, hq])
  refine ⟨fun n hn => ?_, fun x p h => ?_, fun x p h => ?_, fun x h => ?_, fun x h => ?_⟩
  · simp only [Story.new, call_eq hi live, Option.elim_some, after]
    rcases eq_or_ne n s.notes with rfl | hn'
    · simp
    · have hlt : n < s.notes := Nat.lt_of_le_of_ne (Nat.lt_succ_iff.mp hn) hn'
      rw [Function.update_of_ne hn', ht.expiry n hlt, noteExpiry, noteExpiry, born_old hn']
  · simp only [Story.new]
    rcases born_edge h with ⟨rfl, hb⟩ | ⟨hx, hb⟩
    · rw [Function.update_self]
      exact (bornParent_eq_some hb).1
    · rw [Function.update_of_ne hx]
      exact ht.real x p hb
  · simp only [Story.new] at h
    rcases eq_or_ne x s.notes with rfl | hx
    · rw [Function.update_self] at h
      refine ⟨Nat.lt_succ_self _, ?_⟩
      by_cases hb : bornParent s parent a T = some p
      · exact Or.inl (by rw [Heap.parent, born_new, hb])
      · refine Or.inr (born_heard ?_)
        by_cases ha : a ≤ 0 ∨ a ≤ T
        · exact Or.inl ha
        · refine Or.inr ⟨p, h, Or.inl (not_lt.mp fun h0 => hb ?_)⟩
          simp [bornParent, ha, h, Option.filter, h0]
    · rw [Function.update_of_ne hx] at h
      obtain ⟨hlt, hor⟩ := ht.ghost x p h
      rw [born_parent_old hx, heard_born_old hx]
      exact ⟨hlt.trans (Nat.lt_succ_self _), hor⟩
  · simp only [Story.new] at h
    rcases eq_or_ne x s.notes with rfl | hx
    · rw [Function.update_self] at h
      obtain ⟨p, hp, hn⟩ := h
      exact born_heard (Or.inr ⟨p, hp, ht.heard_of_notified hi (hlive p hp).1 hn⟩)
    · rw [Function.update_of_ne hx] at h
      exact (heard_born_old hx).mpr (ht.told x h)
  · rcases eq_or_ne x s.notes with rfl | hx
    · rw [born_new] at h
      have ha : 0 < a ∧ a ≤ T := by simpa using h
      refine Or.inr ?_
      rw [noteExpiry, born_new]
      exact (bornExpiry_le s parent a T).trans ha.2
    · rw [born_old hx] at h
      rw [noteExpiry, born_old hx]
      simp only [Story.new]
      rw [Function.update_of_ne hx]
      exact ht.marked x h

theorem notifiedTime_release (s : Heap τ) (n x : ℕ) :
    ((release s n).note x).notifiedTime = (s.note x).notifiedTime := by
  rcases eq_or_ne x n with rfl | hx
  · rw [release_self]
    rfl
  · exact (release_fields hx).1

theorem Tracks.free (ht : Tracks st s T) (hi : Inv s) (n : ℕ) :
    Tracks (st.free n) (release s n) T := by
  have hheard : ∀ x, (release s n).Heard x T ↔ s.Heard x T := by
    intro x
    rw [Heap.Heard, notifiedTime_release]
    rfl
  refine ⟨fun x hx => ?_, fun x p h => ?_, fun x p h => ?_, fun x h => ?_, fun x h => ?_⟩
  · rw [noteExpiry_release]
    exact ht.expiry x hx
  · rcases release_edge h with ⟨hxn, ⟨hx, hp⟩ | ⟨hne, hx⟩⟩
    · simp [Story.free, hxn, ht.real x n hx, ht.real n p hp]
    · have hpn : p ≠ n := fun hp => hne (hp ▸ hx)
      simp [Story.free, hxn, ht.real x p hx, hpn]
  · simp only [Story.free] at h
    split at h
    case isTrue => cases h
    case isFalse hxn =>
      rw [hheard, Heap.parent, release_other hxn]
      split at h
      case isTrue hx =>
        obtain ⟨hlt, hor⟩ := ht.ghost x n hx
        refine ⟨hlt, ?_⟩
        rcases hor with hreal | hh
        · rcases (ht.ghost n p h).2 with hreal' | hh
          · exact Or.inl (by simp [hreal, hreal'])
          · exact Or.inr (ht.heard_child hi hx hh)
        · exact Or.inr hh
      case isFalse hx =>
        obtain ⟨hlt, hor⟩ := ht.ghost x p h
        refine ⟨hlt, hor.imp_left fun hreal => ?_⟩
        have hne : s.parent x ≠ some n := fun hs => hx (ht.real x n hs)
        simpa [hne] using hreal
  · exact (hheard x).mpr (ht.told x h)
  · rw [noteExpiry_release]
    have hmark : ((release s n).note x).notified = (s.note x).notified := by
      rcases eq_or_ne x n with rfl | hx
      · rw [release_self]
      · rw [release_other hx]
    exact ht.marked x (hmark ▸ h)

theorem Tracks.step (ht : Tracks st s T) (hi : Inv s) {c : Call τ}
    (live : ∀ n ∈ c.notes, s.Live n) : Tracks (st.step ⟨s, c, T⟩) (after s c T) T := by
  cases c with
  | new parent a ok =>
    cases ok with
    | true => exact ht.new hi live
    | false => exact ht
  | notify n => exact ht.notify hi n
  | isNotified n => exact ht.expire hi (live n (List.mem_singleton_self n)).1
  | free n => exact ht.free hi n

end

/-- Along a run the notes follow the story. -/
theorem Run.tracks (h : Run es s) (hT : ∀ e ∈ es, e.now ≤ T) : Tracks (story es) s T := by
  induction h generalizing T with
  | nil =>
    refine ⟨fun n hn => absurd hn (Nat.not_lt_zero n), fun x p h => ?_, fun x p h => ?_,
      fun x h => h.elim, fun x h => ?_⟩ <;> cases h
  | @call es s s' c now v h live later returns ih =>
    rw [call_eq h.inv live] at returns
    cases returns
    rw [story_snoc]
    exact ((ih later).step h.inv live).mono (hT _ (List.mem_append_right _ (List.mem_singleton_self _)))

/-! ## The meaning of the calls -/

/-- The flags, the expiry times and the clock together say what the story says. -/
theorem Run.heard_iff (h : Run es s) (hT : ∀ e ∈ es, e.now ≤ T) (h0 : 0 ≤ T) (hn : n < s.notes) :
    s.Heard n T ↔ (story es).Notified n T := by
  have ht := h.tracks hT
  refine ⟨fun hh => ?_, ht.heard_of_notified h.inv hn⟩
  rw [Story.Notified, ht.expiry n hn]
  cases hm : (s.note n).notified with
  | true => exact ht.marked n hm
  | false =>
    have htime : (s.note n).notifiedTime = noteExpiry s n := by
      simp [Note.notifiedTime, hm, h.inv.valid n hn, noteExpiry]
    rw [Heap.Heard, htime] at hh
    exact Or.inr (hh.elim (fun h => h.trans h0) id)

/-- A note that counts as notified does so after every call. -/
theorem Heap.Heard.after (h : s.Heard n T) (hn : n < s.notes) (c : Call τ) (now : τ) :
    (after s c now).Heard n T := by
  cases c with
  | new parent a ok =>
    cases ok with
    | true =>
      change (born s parent a now).Heard n T
      rw [Heap.Heard, born_old hn.ne]
      exact h
    | false => exact h
  | notify m =>
    change (if _ then _ else _ : Heap τ).Heard n T
    split
    · exact h.tell m
    · exact h
  | isNotified m =>
    change (if _ then _ else _ : Heap τ).Heard n T
    split
    · exact h.tell m
    · exact h
  | free m =>
    change (release s m).Heard n T
    rw [Heap.Heard, notifiedTime_release]
    exact h

theorem Run.heard_stays (h : Run es s) {e : Event τ} (he : e ∈ es) (hn : n < e.before.notes)
    (hh : e.before.Heard n e.now) (hT : ∀ f ∈ es, f.now ≤ T) : n < s.notes ∧ s.Heard n T := by
  induction h generalizing T with
  | nil => cases he
  | @call es s s' c now v h live later returns ih =>
    rw [call_eq h.inv live] at returns
    cases returns
    have hlast : now ≤ T := hT _ (List.mem_append_right _ (List.mem_singleton_self _))
    have hbefore : n < s.notes ∧ s.Heard n now := by
      rcases List.mem_append.mp he with he | he
      · exact ih he later
      · rw [List.mem_singleton.mp he] at hn hh
        exact ⟨hn, hh⟩
    exact ⟨hbefore.1.trans_le (notes_le_after s c now),
      (hbefore.2.after hbefore.1 c now).mono hlast⟩

/-- What holds after the calls `es`, which have led to the notes `s`. -/
structure Meaning (es : List (Event τ)) (s : Heap τ) : Prop where
  /-- The children of a note are listed once each. -/
  once : ∀ p c, (s.note p).children.count c = if s.parent c = some p then 1 else 0
  acyclic : ∀ n, ¬ Relation.TransGen (fun a b => s.parent b = some a) n n
  unmarked : ∀ c p, s.parent c = some p → (s.note c).notified = false ∧ (s.note p).notified = false
  /-- No call blocks. -/
  returns : ∀ c now, (∀ n ∈ c.notes, s.Live n) → (call s c now).isSome
  isNotified : ∀ n now, s.Live n → (∀ e ∈ es, e.now ≤ now) → 0 ≤ now →
    ∃ s' b, call s (.isNotified n) now = some (s', .bool b) ∧ (b = true ↔ (story es).Notified n now)
  stays : ∀ n now, s.Live n → (∀ e ∈ es, e.now ≤ now) → ∀ e ∈ es, e.call = .isNotified n →
    (call e.before e.call e.now).map Prod.snd = some (.bool true) →
    (call s (.isNotified n) now).map Prod.snd = some (.bool true)
  /-- A call on `n` touches no note outside the subtree of `n`, but for the list that `n`
  is taken off. -/
  frame : ∀ n now c, s.Live n → c = .notify n ∨ c = .isNotified n →
    ∀ s' v, call s c now = some (s', v) → ∀ x, ¬ Below s.parent n x →
      s'.note x = s.note x ∨ (s.parent n = some x ∧
        s'.note x = { s.note x with children := (s.note x).children.erase n })

theorem Linked.count_children (hl : Linked s) (p c : ℕ) :
    (s.note p).children.count c = if s.parent c = some p then 1 else 0 := by
  split
  case isTrue h => exact List.count_eq_one_of_mem (hl.nodup p) ((hl.mem_iff p c).mpr h)
  case isFalse h => exact List.count_eq_zero_of_not_mem fun hm => h ((hl.mem_iff p c).mp hm)

theorem Linked.acyclic (hl : Linked s) (n : ℕ) :
    ¬ Relation.TransGen (fun a b => s.parent b = some a) n n := by
  intro h
  obtain ⟨m, hnm, hm⟩ := Relation.TransGen.tail'_iff.mp h
  exact (hl.lt n m hm).not_ge (Below.le hl.lt hnm)

theorem tell_frame (hl : Linked s) (hx : ¬ Below s.parent n x) :
    (tell s n).note x = s.note x ∨ (s.parent n = some x ∧
      (tell s n).note x = { s.note x with children := (s.note x).children.erase n }) := by
  by_cases hp : s.parent n = some x
  · exact Or.inr ⟨hp, tell_other hx⟩
  · exact Or.inl (tell_far hl hx hp)

/-- Every sequence of calls, one after the other, means what its story says. -/
theorem calls_have_meaning (h : Run es s) : Meaning es s := by
  have hi := h.inv
  have live : ∀ {n}, s.Live n → ∀ x ∈ (Call.isNotified n : Call τ).notes, s.Live x := by
    intro n hn x hx
    rwa [List.mem_singleton.mp hx]
  refine ⟨hi.toLinked.count_children, hi.toLinked.acyclic, fun c p hc => ?_, fun c now hc => ?_,
    fun n now hn hT h0 => ?_, fun n now hn hT e he hcall hret => ?_,
    fun n now c hn hc s' v hret x hx => ?_⟩
  · obtain ⟨hpc, hpp⟩ := hi.pending c p hc
    exact ⟨(notifiedTime_of_pending (hi.valid c (hi.used c p hc)) hpc).1,
      (notifiedTime_of_pending (hi.valid p (hi.parent_lt hc)) hpp).1⟩
  · rw [call_eq hi hc]
    rfl
  · refine ⟨_, _, call_eq hi (live hn) now, ?_⟩
    rw [decide_eq_true_iff]
    exact h.heard_iff hT h0 hn.1
  · obtain ⟨hie, -, hlive⟩ := h.event he
    rw [call_eq hie hlive, hcall] at hret
    have hheard : e.before.Heard n e.now := by simpa [answer] using hret
    have hlt : n < e.before.notes := (hlive n (by simp [hcall, Call.notes])).1
    have hnow := (h.heard_stays he hlt hheard hT).2
    rw [call_eq hi (live hn)]
    simp [answer, hnow]
  · have hlive : ∀ y ∈ c.notes, s.Live y := by
      intro y hy
      rcases hc with rfl | rfl <;> rwa [List.mem_singleton.mp hy]
    rw [call_eq hi hlive] at hret
    cases hret
    have hafter : after s c now = tell s n ∨ after s c now = s := by
      rcases hc with rfl | rfl <;> exact ite_eq_or_eq _ _ _
    rcases hafter with heq | heq
    · rw [heq]
      exact tell_frame hi.toLinked hx
    · exact Or.inl (by rw [heq])

/-- Two notes, one below the other. -/
theorem calls_have_meaning_twoNotes :
    Run (twoNotes 7 9 2) (born (born Heap.initial none 7 0) (some 0) 9 2) ∧
      Meaning (twoNotes 7 9 2) (born (born Heap.initial none 7 0) (some 0) 9 2) :=
  ⟨run_twoNotes 7 9 2, calls_have_meaning (run_twoNotes 7 9 2)⟩

end Nsync.Note
