import Nsync.Note.Free

/-!
# The expiry time of a note

The header says that the expiry time of a note is the least of the deadline given when
it was made and those of its ancestors.  It never changes, and no note expires later
than the note it is linked to.  But the parent is not consulted for a deadline that has
passed, and a parent that has been notified hands down zero in place of its expiry
time.
-/

set_option linter.unusedSectionVars false

namespace Nsync.Note

open Nsync.Lib
open Nsync.Wait (Note)

variable {τ : Type} [LinearOrder τ] [OrderTop τ] [Zero τ] {s : Heap τ} {n : ℕ} {c : Call τ}
  {now : τ} {es : List (Event τ)}

/-! ## Expiry times do not change -/

@[simp] theorem noteExpiry_tell (s : Heap τ) (n x : ℕ) : noteExpiry (tell s n) x = noteExpiry s x := by
  by_cases hx : Below s.parent n x
  · rw [noteExpiry, tell_below hx]
    rfl
  · rw [noteExpiry, tell_other hx]
    rfl

theorem notes_le_after (s : Heap τ) (c : Call τ) (now : τ) : s.notes ≤ (after s c now).notes := by
  cases c with
  | new parent a ok =>
    cases ok with
    | true => exact Nat.le_succ _
    | false => exact le_rfl
  | notify n =>
    change _ ≤ (if _ then _ else _ : Heap τ).notes
    split <;> exact le_rfl
  | isNotified n =>
    change _ ≤ (if _ then _ else _ : Heap τ).notes
    split <;> exact le_rfl
  | free n => exact le_rfl

theorem noteExpiry_after (c : Call τ) (now : τ) (hn : n < s.notes) :
    noteExpiry (after s c now) n = noteExpiry s n := by
  cases c with
  | new parent a ok =>
    cases ok with
    | true =>
      change noteExpiry (born s parent a now) n = _
      rw [noteExpiry, born_old hn.ne]
      rfl
    | false => rfl
  | notify m =>
    change noteExpiry (if _ then _ else _) n = _
    split
    · exact noteExpiry_tell s m n
    · rfl
  | isNotified m =>
    change noteExpiry (if _ then _ else _) n = _
    split
    · exact noteExpiry_tell s m n
    · rfl
  | free m => exact noteExpiry_release s m n

/-! ## Notified notes have had a deadline to come -/

/-- Zero and less count as notified without a mark. -/
def MarkedPositive (s : Heap τ) : Prop := ∀ n, (s.note n).notified = true → 0 < noteExpiry s n

theorem MarkedPositive.tell (hi : Inv s) (hm : MarkedPositive s) (hn : n < s.notes)
    (h0 : 0 < (s.note n).notifiedTime) : MarkedPositive (tell s n) := by
  intro x hx
  rw [noteExpiry_tell]
  by_cases hb : Below s.parent n x
  · have hpos : x < s.notes ∧ 0 < (s.note x).notifiedTime := by
      rcases hb.eq_or_parent with rfl | ⟨p, hp, -⟩
      · exact ⟨hn, h0⟩
      · exact ⟨hi.used x p hp, (hi.pending x p hp).1⟩
    rw [noteExpiry, ← (notifiedTime_of_pending (hi.valid x hpos.1) hpos.2).2]
    exact hpos.2
  · rw [tell_other hb] at hx
    exact hm x hx

theorem MarkedPositive.after (hi : Inv s) (hc : ∀ n ∈ c.notes, s.Live n) (hm : MarkedPositive s) :
    MarkedPositive (after s c now) := by
  cases c with
  | new parent a ok =>
    cases ok with
    | true =>
      intro x hx
      change ((born s parent a now).note x).notified = true at hx
      change 0 < ((born s parent a now).note x).expiryTime
      rcases eq_or_ne x s.notes with rfl | hxn
      · rw [born_new] at hx ⊢
        have ha : 0 < a ∧ a ≤ now := by simpa using hx
        simp [bornExpiry, ha]
      · rw [born_old hxn] at hx ⊢
        exact hm x hx
    | false => exact hm
  | notify n =>
    change MarkedPositive (if _ then _ else _)
    split
    · exact hm.tell hi (hc n (List.mem_singleton_self n)).1 ‹_›
    · exact hm
  | isNotified n =>
    change MarkedPositive (if _ then _ else _)
    split
    case isTrue h => exact hm.tell hi (hc n (List.mem_singleton_self n)).1 h.1
    case isFalse => exact hm
  | free n =>
    intro x hx
    change ((release s n).note x).notified = true at hx
    change 0 < noteExpiry (release s n) x
    rw [noteExpiry_release]
    rcases eq_or_ne x n with rfl | hxn
    · rw [release_self] at hx
      exact hm x hx
    · rw [release_other hxn] at hx
      exact hm x hx

theorem Run.markedPositive (h : Run es s) : MarkedPositive s := by
  induction h with
  | nil =>
    intro n hn
    cases hn
  | call h live _ returns ih =>
    rw [call_eq h.inv live] at returns
    cases returns
    exact ih.after h.inv live

/-! ## The documented expiry time -/

/-- The note that an event makes, and the expiry time that the header says it has. -/
def Event.documented (e : Event τ) : Option (ℕ × τ) :=
  match e.call with
  | .new (some p) a true => some (e.before.notes, min a (noteExpiry e.before p))
  | .new none a true => some (e.before.notes, a)
  | _ => none

/-- Whenever the documented expiry time is what a note gets: a deadline that has passed
is not later than the expiry time of the parent, and for one to come the parent is not
marked as notified. -/
def Event.InTime (e : Event τ) : Prop :=
  match e.call with
  | .new (some p) a true =>
      if a ≤ 0 ∨ a ≤ e.now then a ≤ noteExpiry e.before p else (e.before.note p).notified = false
  | _ => True

/-- The expiry time that a note is made with is as documented just if it is made in
time. -/
theorem Event.documented_iff {e : Event τ} (hi : Inv e.before) (hm : MarkedPositive e.before)
    (live : ∀ n ∈ e.call.notes, e.before.Live n) {t : τ} (hd : e.documented = some (n, t)) :
    noteExpiry (after e.before e.call e.now) n = t ↔ e.InTime := by
  obtain ⟨s, c, now⟩ := e
  rcases c with ⟨parent, a, ok⟩ | _ | _ | _
  case new =>
    rcases ok with _ | _
    · simp [Event.documented] at hd
    · rcases parent with _ | p
      · simp only [Event.documented, Option.some.injEq, Prod.mk.injEq] at hd
        obtain ⟨rfl, rfl⟩ := hd
        simp [after, noteExpiry, born_new, bornExpiry, Event.InTime]
      · simp only [Event.documented, Option.some.injEq, Prod.mk.injEq] at hd
        obtain ⟨rfl, rfl⟩ := hd
        have hp : s.Live p := live p (by simp [Call.notes])
        simp only [after, noteExpiry, born_new, bornExpiry, Event.InTime]
        by_cases ha : a ≤ 0 ∨ a ≤ now
        · simp [ha]
        · have h0 : 0 < a := not_le.mp fun h => ha (Or.inl h)
          simp only [ha, if_false]
          cases hx : (s.note p).notified with
          | false =>
            have hv : (s.note p).expiryTimeValid = true := hi.valid p hp.1
            simp [Note.notifiedTime, hx, hv]
          | true =>
            have hpos : 0 < min a (s.note p).expiryTime := lt_min h0 (hm p hx)
            simp [Note.notifiedTime, hx, h0.le, hpos.ne]
  all_goals simp [Event.documented] at hd

/-- What an event of a run starts from. -/
theorem Run.event (h : Run es s) {e : Event τ} (he : e ∈ es) :
    Inv e.before ∧ MarkedPositive e.before ∧ ∀ n ∈ e.call.notes, e.before.Live n := by
  induction h with
  | nil => cases he
  | call h live _ _ ih =>
    rcases List.mem_append.mp he with he | he
    · exact ih he
    · rw [List.mem_singleton.mp he]
      exact ⟨h.inv, h.markedPositive, live⟩

/-- A note keeps the expiry time that it is made with. -/
theorem Run.noteExpiry_eq (h : Run es s) {e : Event τ} (he : e ∈ es) {t : τ}
    (hd : e.documented = some (n, t)) :
    n < s.notes ∧ noteExpiry s n = noteExpiry (after e.before e.call e.now) n := by
  induction h with
  | nil => cases he
  | @call es s s' c now v h live _ returns ih =>
    rw [call_eq h.inv live] at returns
    cases returns
    rcases List.mem_append.mp he with he | he
    · obtain ⟨hlt, heq⟩ := ih he
      exact ⟨hlt.trans_le (notes_le_after s c now), (noteExpiry_after c now hlt).trans heq⟩
    · rw [List.mem_singleton.mp he] at hd ⊢
      refine ⟨?_, rfl⟩
      rcases c with ⟨_ | p, a, _ | _⟩ | _ | _ | _ <;>
        simp only [Event.documented, Option.some.injEq, Prod.mk.injEq, reduceCtorEq] at hd <;>
        exact hd.1 ▸ Nat.lt_succ_self _

/-- In every state of a run each note that has been made has the documented expiry
time, and no child expires later than its parent. -/
structure Documented (es : List (Event τ)) (s : Heap τ) : Prop where
  during : es.Pairwise fun e f =>
    ∀ n t, e.documented = some (n, t) → noteExpiry f.before n = t
  after : ∀ e ∈ es, ∀ n t, e.documented = some (n, t) → noteExpiry s n = t
  children : ∀ u ∈ s :: es.map Event.before, ∀ p, ∀ c ∈ (u.note p).children,
    noteExpiry u c ≤ noteExpiry u p

theorem Run.children_le (h : Run es s) : ∀ u ∈ s :: es.map Event.before, ∀ p,
    ∀ c ∈ (u.note p).children, noteExpiry u c ≤ noteExpiry u p := by
  have key : ∀ u : Heap τ, Inv u → ∀ p, ∀ c ∈ (u.note p).children,
      noteExpiry u c ≤ noteExpiry u p := by
    intro u hu p c hc
    exact hu.expiry_le c p ((hu.mem_iff p c).mp hc)
  intro u hu
  rcases List.mem_cons.mp hu with rfl | hu
  · exact key u h.inv
  · obtain ⟨e, he, rfl⟩ := List.mem_map.mp hu
    exact key _ (h.event he).1

theorem Run.documented_after (h : Run es s) (hes : ∀ e ∈ es, e.InTime) :
    ∀ e ∈ es, ∀ n t, e.documented = some (n, t) → noteExpiry s n = t := by
  intro e he n t hd
  obtain ⟨hi, hm, live⟩ := h.event he
  rw [(h.noteExpiry_eq he hd).2]
  exact (Event.documented_iff hi hm live hd).mpr (hes e he)

theorem Run.documented_during (h : Run es s) (hes : ∀ e ∈ es, e.InTime) :
    es.Pairwise fun e f => ∀ n t, e.documented = some (n, t) → noteExpiry f.before n = t := by
  induction h with
  | nil => exact List.Pairwise.nil
  | call h _ _ _ ih =>
    have hes' := fun e he => hes e (List.mem_append_left _ he)
    refine List.pairwise_append.mpr ⟨ih hes', List.pairwise_singleton _ _, ?_⟩
    intro e he f hf
    rw [List.mem_singleton.mp hf]
    exact h.documented_after hes' e he

/-- Along a run of any calls, the expiry times are as documented just if all notes are
made in time. -/
theorem documented_iff_inTime (h : Run es s) : Documented es s ↔ ∀ e ∈ es, e.InTime := by
  constructor
  · intro hdoc e he
    obtain ⟨hi, hm, live⟩ := h.event he
    cases hd : e.documented with
    | none =>
      obtain ⟨u, c, now⟩ := e
      rcases c with ⟨_ | p, a, _ | _⟩ | _ | _ | _ <;> trivial
    | some r =>
      refine (Event.documented_iff hi hm live hd).mp ?_
      rw [← (h.noteExpiry_eq he hd).2]
      exact hdoc.after e he r.1 r.2 hd
  · intro hes
    exact ⟨h.documented_during hes, h.documented_after hes, h.children_le⟩

/-- A note with the deadline `a`, made at time zero, and then one below it with the
deadline `b`, made at the time `now`. -/
def twoNotes (a b now : WithTop ℕ) : List (Event (WithTop ℕ)) :=
  [⟨Heap.initial, .new none a true, 0⟩, ⟨born Heap.initial none a 0, .new (some 0) b true, now⟩]

theorem run_twoNotes (a b now : WithTop ℕ) :
    Run (twoNotes a b now) (born (born Heap.initial none a 0) (some 0) b now) := by
  have hfirst : Run ([] ++ [⟨Heap.initial, .new none a true, 0⟩]) (born Heap.initial none a 0) := by
    refine Run.call Run.nil ?_ ?_ (call_eq inv_initial ?_ 0)
    · simp [Call.notes]
    · simp
    · simp [Call.notes]
  have live : ∀ n ∈ (Call.new (some 0) b true).notes, (born Heap.initial none a 0).Live n := by
    intro n hn
    have h0 : n = 0 := by simpa [Call.notes] using hn
    subst h0
    exact ⟨Nat.zero_lt_one, rfl⟩
  refine Run.call hfirst live ?_ (call_eq hfirst.inv live now)
  simp

/-- The child is made before both deadlines. -/
theorem documented_iff_inTime_twoNotes :
    Run (twoNotes 7 9 2) (born (born Heap.initial none 7 0) (some 0) 9 2) ∧
      (Documented (twoNotes 7 9 2) (born (born Heap.initial none 7 0) (some 0) 9 2) ↔
        ∀ e ∈ twoNotes 7 9 2, e.InTime) :=
  ⟨run_twoNotes 7 9 2, documented_iff_inTime (run_twoNotes 7 9 2)⟩

/-- At the time 10 a note with the deadline 5 is made below one that expired at 3: its
expiry time is 5 and not 3. -/
theorem passed_deadline_hides_parent :
    Run (twoNotes 3 5 10) (born (born Heap.initial none 3 0) (some 0) 5 10) ∧
      (∀ e ∈ twoNotes 3 5 10, ∀ n, e.call ≠ .notify n) ∧
      noteExpiry (born (born Heap.initial none (3 : WithTop ℕ) 0) (some 0) 5 10) 1 = 5 ∧
      ¬ Documented (twoNotes 3 5 10) (born (born Heap.initial none 3 0) (some 0) 5 10) := by
  have hexp : noteExpiry (born (born Heap.initial none (3 : WithTop ℕ) 0) (some 0) 5 10) 1 = 5 := by
    decide
  refine ⟨run_twoNotes 3 5 10, by simp [twoNotes], hexp, fun h => ?_⟩
  have h3 := h.after ⟨born Heap.initial none 3 0, .new (some 0) 5 true, 10⟩ (by simp [twoNotes]) 1
    3 (by decide)
  rw [hexp] at h3
  exact absurd h3 (by decide)

end Nsync.Note
