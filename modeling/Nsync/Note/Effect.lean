import Nsync.Note.Forest

/-!
# What each call does to the notes

Between two calls no mutex is held and no note is being disconnected.  From such
notes every call returns, and its effect is one equation: the mutexes and counts that
it uses on the way are as before in the end.
-/

set_option linter.unusedSectionVars false

namespace Nsync.Note

open Nsync.Lib
open Nsync.Wait (Note nextIn)

variable {τ : Type} [LinearOrder τ] [OrderTop τ] [Zero τ] {s s' : Heap τ} {n p c x k : ℕ}
  {m : ℕ → Option Unit} {d : ℕ → ℕ}

/-! ## Mutexes and counts on the way -/

/-- The notes with mutexes and `disconnecting` as `m` and `d` say. -/
def Heap.dress (s : Heap τ) (m : ℕ → Option Unit) (d : ℕ → ℕ) : Heap τ :=
  { s with note := fun x => { s.note x with noteMu := m x, disconnecting := d x } }

/-- No mutex is held and no note is being disconnected. -/
structure Idle (s : Heap τ) : Prop where
  mu : ∀ n, (s.note n).noteMu = none
  connected : ∀ n, (s.note n).disconnecting = 0

theorem Idle.eq_dress (hi : Idle s) : s = s.dress (fun _ => none) (fun _ => 0) := by
  ext1
  · funext x
    simp only [Heap.dress, ← hi.mu x, ← hi.connected x]
  · rfl

@[simp] theorem dress_parent : (s.dress m d).parent = s.parent := rfl

@[simp] theorem dress_notes : (s.dress m d).notes = s.notes := rfl

@[simp] theorem dress_children : ((s.dress m d).note x).children = (s.note x).children := rfl

@[simp] theorem dress_notifiedTime :
    ((s.dress m d).note x).notifiedTime = (s.note x).notifiedTime := rfl

theorem Linked.dress (hl : Linked s) : Linked (s.dress m d) :=
  ⟨hl.mem_iff, hl.nodup, hl.lt, hl.used⟩

theorem lock_dress (h : m n = none) :
    lock (s.dress m d) n = some (s.dress (Function.update m n (some ())) d) := by
  rw [lock_of_free (by exact h)]
  congr 1
  ext1
  · funext x
    by_cases hx : x = n
    · subst hx
      simp [Heap.dress]
    · simp [Heap.dress, hx]
  · rfl

theorem unlock_dress : unlock (s.dress m d) n = s.dress (Function.update m n none) d := by
  ext1
  · funext x
    by_cases hx : x = n
    · subst hx
      simp [unlock, Heap.dress]
    · simp [unlock, Heap.dress, hx]
  · rfl

theorem incrDisconnecting_dress :
    incrDisconnecting (s.dress m d) n = s.dress m (Function.update d n (d n + 1)) := by
  ext1
  · funext x
    by_cases hx : x = n
    · subst hx
      simp [incrDisconnecting, Heap.dress]
    · simp [incrDisconnecting, Heap.dress, hx]
  · rfl

theorem decrDisconnecting_dress :
    decrDisconnecting (s.dress m d) n = s.dress m (Function.update d n (d n - 1)) := by
  ext1
  · funext x
    by_cases hx : x = n
    · subst hx
      simp [decrDisconnecting, Heap.dress]
    · simp [decrDisconnecting, Heap.dress, hx]
  · rfl

theorem tell_dress (s : Heap τ) (m : ℕ → Option Unit) (d : ℕ → ℕ) (n : ℕ) :
    tell (s.dress m d) n = (tell s n).dress m d := by
  ext1
  · funext x
    by_cases hx : Below s.parent n x
    · simp only [Heap.dress, tell_below hx]
      exact tell_below hx
    · simp only [Heap.dress, tell_other hx]
      exact tell_other hx
  · rfl

/-! ## `notify` and its callers -/

/-- What holds of the notes between two calls. -/
structure Inv (s : Heap τ) : Prop extends Linked s, Idle s where
  waiters : ∀ n, (s.note n).waiters = []
  valid : ∀ n < s.notes, (s.note n).expiryTimeValid = true
  pending : ∀ c p, s.parent c = some p → 0 < (s.note c).notifiedTime ∧ 0 < (s.note p).notifiedTime
  unfreed : ∀ c p, s.parent c = some p → (s.note c).freed = false ∧ (s.note p).freed = false
  expiry_le : ∀ c p, s.parent c = some p → noteExpiry s c ≤ noteExpiry s p

/-- `m` with the value `v` at the parent, if there is one. -/
def setMu (m : ℕ → Option Unit) (q : Option ℕ) (v : Option Unit) : ℕ → Option Unit :=
  match q with
  | some p => Function.update m p v
  | none => m

theorem lockParent_dress {q : Option ℕ} (hn : ∀ p, q = some p → m p = none) :
    lockParent (s.dress m d) n q = some (s.dress (setMu m q (some ())) d) := by
  cases q with
  | none => rfl
  | some p => simp only [lockParent, lock_dress (hn p rfl), setMu]

theorem unlockParent_dress {q : Option ℕ} :
    unlockParent (s.dress m d) q = s.dress (setMu m q none) d := by
  cases q with
  | none => rfl
  | some p => exact unlock_dress

/-- The mutexes of a note and its parent are free in the end. -/
theorem unlocked_again (n : ℕ) (q : Option ℕ) :
    Function.update (setMu (setMu (Function.update (fun _ => none) n (some ())) q (some ())) q none)
      n none = fun _ => none := by
  funext x
  cases q with
  | none => by_cases hx : x = n <;> simp [hx, setMu]
  | some p =>
    by_cases hx : x = n <;> by_cases hp : x = p <;> simp [hx, hp, setMu, Function.update_apply]

theorem lock_idle (hi : Idle s) (n : ℕ) :
    lock s n = some (s.dress (Function.update (fun _ => none) n (some ())) (fun _ => 0)) := by
  conv_lhs => rw [hi.eq_dress]
  exact lock_dress rfl

theorem Inv.parent_ne (hi : Inv s) : ∀ p, s.parent n = some p → p ≠ n :=
  fun p hp => (hi.lt n p hp).ne

theorem tell_idle (hi : Idle s) (n : ℕ) : Idle (tell s n) := by
  constructor <;> intro x <;> by_cases hx : Below s.parent n x
  · rw [tell_below hx]
    exact hi.mu x
  · rw [tell_other hx]
    exact hi.mu x
  · rw [tell_below hx]
    exact hi.connected x
  · rw [tell_other hx]
    exact hi.connected x

/-- The note that is notified and its parent are locked while this happens. -/
theorem notifyChild_dress (hi : Inv s) (hn : 0 < (s.note n).notifiedTime)
    (hm : ∀ x, x ≠ n → s.parent n ≠ some x → m x = none) (hd : ∀ x, x ≠ n → d x = 0) :
    noteNotifyChild ((s.notes + 1) * (s.notes + 1)) (s.dress m d) n (s.parent n) =
      some ((tell s n).dress m d) := by
  rw [← tell_dress]
  refine (notifyChild_and_loop _).1 (s.dress m d) n hi.toLinked.dress hn ?_ ?_
  · intro x hx hxn
    obtain ⟨q, hq, hnq⟩ := hx.eq_or_parent.resolve_left hxn
    refine ⟨hm x hxn ?_, hd x hxn, (hi.pending x q hq).1⟩
    intro hp
    exact (hi.lt n x hp).not_ge (hx.le hi.lt)
  · exact Nat.mul_le_mul_left _ (by simp)

/-- The mutexes while a note and its parent are locked. -/
def heldMu (n : ℕ) (q : Option ℕ) : ℕ → Option Unit :=
  setMu (Function.update (fun _ => none) n (some ())) q (some ())

theorem heldMu_other {q : Option ℕ} (hn : x ≠ n) (hq : q ≠ some x) : heldMu n q x = none := by
  cases q with
  | none => simp [heldMu, setMu, hn]
  | some p =>
    have hp : x ≠ p := fun h => hq (h ▸ rfl)
    simp [heldMu, setMu, hn, hp]

/-- The counts while a note is being disconnected. -/
def oneLeaving (n : ℕ) : ℕ → ℕ := Function.update (fun _ => 0) n 1

theorem begin_idle (hi : Inv s) (n : ℕ) :
    (lock s n).bind (fun v => lockParent (incrDisconnecting v n) n (s.parent n)) =
      some (s.dress (heldMu n (s.parent n)) (oneLeaving n)) := by
  rw [lock_idle hi.toIdle, Option.bind_some, incrDisconnecting_dress]
  refine lockParent_dress fun p hp => ?_
  simp [hi.parent_ne p hp]

theorem finish_dress (q : Option ℕ) :
    unlock (decrDisconnecting (unlockParent (s.dress (heldMu n q) (oneLeaving n)) q) n) n =
      s.dress (fun _ => none) (fun _ => 0) := by
  rw [unlockParent_dress, decrDisconnecting_dress, unlock_dress, heldMu, unlocked_again]
  congr 1
  funext x
  by_cases hx : x = n <;> simp [oneLeaving, hx]

theorem notify_eq (hi : Inv s) (n : ℕ) :
    notify s n = some (if 0 < (s.note n).notifiedTime then tell s n else s) := by
  by_cases hn : 0 < (s.note n).notifiedTime
  · have hchild : noteNotifyChild ((s.notes + 1) * (s.notes + 1))
        (s.dress (heldMu n (s.parent n)) (oneLeaving n)) n (s.parent n) =
          some ((tell s n).dress (heldMu n (s.parent n)) (oneLeaving n)) :=
      notifyChild_dress hi hn (fun x hxn hxp => heldMu_other hxn hxp)
        (fun x hxn => by simp [oneLeaving, hxn])
    have hbegin := begin_idle hi n
    rw [lock_idle hi.toIdle, Option.bind_some, incrDisconnecting_dress] at hbegin
    simp only [notify, lock_idle hi.toIdle, Option.bind_eq_bind, Option.bind_some,
      dress_notifiedTime, if_pos hn, incrDisconnecting_dress, dress_parent, hbegin, dress_notes,
      hchild, finish_dress]
    rw [← (tell_idle hi.toIdle n).eq_dress]
  · have hfree : Function.update (Function.update (fun _ : ℕ => (none : Option Unit)) n (some ())) n
        none = fun _ => none := unlocked_again n none
    simp only [notify, lock_idle hi.toIdle, Option.bind_eq_bind, Option.bind_some,
      dress_notifiedTime, if_neg hn, unlock_dress, hfree]
    rw [← hi.toIdle.eq_dress]

/-- Whether `n` counts as notified at the time `now`. -/
def Heap.Heard (s : Heap τ) (n : ℕ) (now : τ) : Prop :=
  (s.note n).notifiedTime ≤ 0 ∨ (s.note n).notifiedTime ≤ now

instance (s : Heap τ) (n : ℕ) (now : τ) : Decidable (s.Heard n now) :=
  inferInstanceAs (Decidable (_ ∨ _))

/-- The notes after the deadline of `n` has been looked at. -/
noncomputable def expire (s : Heap τ) (n : ℕ) (now : τ) : Heap τ :=
  if 0 < (s.note n).notifiedTime ∧ (s.note n).notifiedTime ≤ now then tell s n else s

theorem noteNotifiedDeadline_eq (hi : Inv s) (n : ℕ) (now : τ) :
    noteNotifiedDeadline s n now =
      some (expire s n now, if s.Heard n now then min 0 (s.note n).notifiedTime
        else (s.note n).notifiedTime) := by
  have hfree : Function.update (Function.update (fun _ : ℕ => (none : Option Unit)) n (some ())) n
      none = fun _ => none := unlocked_again n none
  unfold noteNotifiedDeadline
  by_cases hd : (s.note n).notified
  · have ht : (s.note n).notifiedTime = 0 := by simp [Note.notifiedTime, hd]
    simp [hd, expire, ht, Heap.Heard]
  · simp only [hd, lock_idle hi.toIdle, Option.bind_eq_bind, Option.bind_some,
      dress_notifiedTime, unlock_dress, hfree, ← hi.toIdle.eq_dress, notify_eq hi, expire,
      Heap.Heard]
    by_cases h0 : 0 < (s.note n).notifiedTime
    · by_cases hnow : (s.note n).notifiedTime ≤ now
      · simp [h0, hnow, h0.le]
      · simp [h0, hnow, h0.not_ge]
    · simp [h0, not_lt.mp h0]

theorem noteIsNotified_eq (hi : Inv s) (n : ℕ) (now : τ) :
    noteIsNotified s n now = some (expire s n now, decide (s.Heard n now)) := by
  rw [noteIsNotified, noteNotifiedDeadline_eq hi, Option.bind_eq_bind, Option.bind_some]
  by_cases hh : s.Heard n now
  · simp [hh]
  · have h0 : 0 < (s.note n).notifiedTime := not_le.mp fun h => hh (Or.inl h)
    simp [hh, h0]

theorem noteNotify_eq (hi : Inv s) (n : ℕ) (now : τ) :
    noteNotify s n now = some (if 0 < (s.note n).notifiedTime then tell s n else s) := by
  rw [noteNotify, noteNotifiedDeadline_eq hi, Option.bind_eq_bind, Option.bind_some]
  by_cases h0 : 0 < (s.note n).notifiedTime
  · by_cases hnow : (s.note n).notifiedTime ≤ now
    · simp [Heap.Heard, expire, h0, hnow]
    · simp [Heap.Heard, expire, h0, hnow, h0.not_ge, notify_eq hi]
  · have hh : s.Heard n now := Or.inl (not_lt.mp h0)
    simp [hh, expire, h0]

/-! ## `nsync_note_new` -/

/-- The expiry time of a note that is made. -/
def bornExpiry (s : Heap τ) (parent : Option ℕ) (absDeadline now : τ) : τ :=
  if absDeadline ≤ 0 ∨ absDeadline ≤ now then absDeadline
  else match parent with
    | some p => min absDeadline (s.note p).notifiedTime
    | none => absDeadline

/-- The parent that a note that is made gets linked to. -/
def bornParent (s : Heap τ) (parent : Option ℕ) (absDeadline now : τ) : Option ℕ :=
  if absDeadline ≤ 0 ∨ absDeadline ≤ now then none
  else parent.filter fun p => 0 < (s.note p).notifiedTime

/-- The notes with a new one. -/
def born (s : Heap τ) (parent : Option ℕ) (absDeadline now : τ) : Heap τ where
  notes := s.notes + 1
  note x :=
    if x = s.notes then
      { expiryTimeValid := true
        expiryTime := bornExpiry s parent absDeadline now
        noteMu := none
        disconnecting := 0
        notified := decide (0 < absDeadline ∧ absDeadline ≤ now)
        parent := bornParent s parent absDeadline now
        children := []
        waiters := []
        freed := false }
    else if bornParent s parent absDeadline now = some x then
      { s.note x with children := (s.note x).children ++ [s.notes] }
    else s.note x

theorem Inv.parent_lt (hi : Inv s) (h : s.parent c = some p) : p < s.notes :=
  (hi.lt c p h).trans (hi.used c p h)

theorem Inv.parent_new (hi : Inv s) : s.parent s.notes = none := by
  cases h : s.parent s.notes with
  | none => rfl
  | some p => exact absurd (hi.used _ p h) (lt_irrefl _)

theorem Inv.children_new (hi : Inv s) : (s.note s.notes).children = [] := by
  refine List.eq_nil_iff_forall_not_mem.mpr fun c hc => ?_
  exact absurd (hi.parent_lt ((hi.mem_iff _ c).mp hc)) (lt_irrefl _)

section

variable {parent : Option ℕ} {a now : τ}

theorem bornParent_eq_some (h : bornParent s parent a now = some p) :
    parent = some p ∧ 0 < (s.note p).notifiedTime ∧ 0 < a ∧ now < a := by
  unfold bornParent at h
  split at h
  case isTrue => cases h
  case isFalse ha =>
    obtain ⟨hp, h0⟩ := Option.filter_eq_some_iff.mp h
    push Not at ha
    exact ⟨hp, by simpa using h0, ha⟩

theorem bornExpiry_le (s : Heap τ) (parent : Option ℕ) (a now : τ) :
    bornExpiry s parent a now ≤ a := by
  unfold bornExpiry
  split
  · exact le_rfl
  · cases parent with
    | none => exact le_rfl
    | some p => exact min_le_left a _

theorem bornExpiry_linked (h : bornParent s parent a now = some p) :
    bornExpiry s parent a now = min a (s.note p).notifiedTime := by
  obtain ⟨rfl, -, h0, hnow⟩ := bornParent_eq_some h
  simp [bornExpiry, h0.not_ge, hnow.not_ge]

@[simp] theorem born_notes : (born s parent a now).notes = s.notes + 1 := rfl

theorem born_new : (born s parent a now).note s.notes =
    ⟨true, bornExpiry s parent a now, none, 0, decide (0 < a ∧ a ≤ now),
      bornParent s parent a now, [], [], false⟩ := by
  simp [born]

/-- An old note keeps everything but its children. -/
theorem born_old (hx : x ≠ s.notes) : (born s parent a now).note x =
    { s.note x with children := (s.note x).children ++
        if bornParent s parent a now = some x then [s.notes] else [] } := by
  simp only [born, if_neg hx]
  split <;> simp

theorem born_parent_old (hx : x ≠ s.notes) : (born s parent a now).parent x = s.parent x := by
  rw [Heap.parent, born_old hx, Heap.parent]

/-- The links after a note has been made. -/
theorem born_edge (h : (born s parent a now).parent c = some p) :
    (c = s.notes ∧ bornParent s parent a now = some p) ∨ (c ≠ s.notes ∧ s.parent c = some p) := by
  by_cases hc : c = s.notes
  · subst hc
    rw [Heap.parent, born_new] at h
    exact Or.inl ⟨rfl, h⟩
  · rw [born_parent_old hc] at h
    exact Or.inr ⟨hc, h⟩

theorem notifiedTime_of_pending {y : Note Unit τ} (hv : y.expiryTimeValid = true)
    (h0 : 0 < y.notifiedTime) : y.notified = false ∧ y.notifiedTime = y.expiryTime := by
  cases hy : y.notified with
  | true => simp [Note.notifiedTime, hy] at h0
  | false => simp [Note.notifiedTime, hy, hv]

theorem Inv.born_mem_iff (hi : Inv s) (hp : ∀ q, parent = some q → s.Live q) (p c : ℕ) :
    c ∈ ((born s parent a now).note p).children ↔ (born s parent a now).parent c = some p := by
  by_cases hpn : p = s.notes
  · subst hpn
    rw [born_new]
    refine ⟨fun h => absurd h List.not_mem_nil, fun h => ?_⟩
    rcases born_edge h with ⟨-, hb⟩ | ⟨-, hb⟩
    · exact absurd (hp _ (bornParent_eq_some hb).1).1 (lt_irrefl _)
    · exact absurd (hi.parent_lt hb) (lt_irrefl _)
  · rw [born_old hpn]
    by_cases hc : c = s.notes
    · subst hc
      have hnot : s.notes ∉ (s.note p).children := by
        rw [hi.mem_iff, hi.parent_new]
        simp
      rw [Heap.parent, born_new]
      by_cases hb : bornParent s parent a now = some p <;> simp [hb, hnot]
    · rw [born_parent_old hc, ← hi.mem_iff]
      by_cases hb : bornParent s parent a now = some p <;> simp [hb, hc]

theorem Inv.born_nodup (hi : Inv s) (p : ℕ) : ((born s parent a now).note p).children.Nodup := by
  by_cases hpn : p = s.notes
  · subst hpn
    rw [born_new]
    exact List.nodup_nil
  · rw [born_old hpn]
    have hnot : s.notes ∉ (s.note p).children := by
      rw [hi.mem_iff, hi.parent_new]
      simp
    split
    · exact List.nodup_append.mpr ⟨hi.nodup p, List.nodup_singleton _, by
        intro x hx y hy hxy
        exact hnot (List.mem_singleton.mp hy ▸ hxy ▸ hx)⟩
    · simpa using hi.nodup p

/-- A new note that is linked is pending and expires no later than its parent. -/
theorem Inv.born_linked (hi : Inv s) (hp : ∀ q, parent = some q → s.Live q)
    (hb : bornParent s parent a now = some p) :
    0 < ((born s parent a now).note s.notes).notifiedTime ∧
      ((born s parent a now).note s.notes).expiryTime ≤ (s.note p).expiryTime := by
  obtain ⟨hq, h0, ha, hnow⟩ := bornParent_eq_some hb
  have hval := (notifiedTime_of_pending (hi.valid p (hp p hq).1) h0).2
  rw [born_new, bornExpiry_linked hb]
  constructor
  · simpa [Note.notifiedTime, hnow.not_ge, ha] using h0
  · exact hval ▸ min_le_right _ _

theorem Inv.born (hi : Inv s) (hp : ∀ q, parent = some q → s.Live q) :
    Inv (born s parent a now) := by
  have hedge : ∀ c p, (Note.born s parent a now).parent c = some p → p ≠ s.notes := by
    intro c p h
    rcases born_edge h with ⟨-, hb⟩ | ⟨-, hb⟩
    · exact (hp _ (bornParent_eq_some hb).1).1.ne
    · exact (hi.parent_lt hb).ne
  refine ⟨⟨hi.born_mem_iff hp, hi.born_nodup, fun c p h => ?_, fun c p h => ?_⟩,
    ⟨fun x => ?_, fun x => ?_⟩, fun x => ?_, fun x hx => ?_, fun c p h => ?_, fun c p h => ?_,
    fun c p h => ?_⟩
  · rcases born_edge h with ⟨rfl, hb⟩ | ⟨-, hb⟩
    · exact (hp _ (bornParent_eq_some hb).1).1
    · exact hi.lt c p hb
  · rcases born_edge h with ⟨rfl, -⟩ | ⟨-, hb⟩
    · exact Nat.lt_succ_self _
    · exact (hi.used c p hb).trans (Nat.lt_succ_self _)
  · by_cases hx : x = s.notes
    · rw [hx, born_new]
    · rw [born_old hx]
      exact hi.mu x
  · by_cases hx : x = s.notes
    · rw [hx, born_new]
    · rw [born_old hx]
      exact hi.connected x
  · by_cases hx : x = s.notes
    · rw [hx, born_new]
    · rw [born_old hx]
      exact hi.waiters x
  · by_cases hxn : x = s.notes
    · rw [hxn, born_new]
    · rw [born_old hxn]
      exact hi.valid x (Nat.lt_of_le_of_ne (Nat.lt_succ_iff.mp hx) hxn)
  · rw [born_old (hedge c p h)]
    rcases born_edge h with ⟨rfl, hb⟩ | ⟨hc, hb⟩
    · exact ⟨(hi.born_linked hp hb).1, (bornParent_eq_some hb).2.1⟩
    · rw [born_old hc]
      exact hi.pending c p hb
  · rw [born_old (hedge c p h)]
    rcases born_edge h with ⟨rfl, hb⟩ | ⟨hc, hb⟩
    · rw [born_new]
      exact ⟨rfl, (hp p (bornParent_eq_some hb).1).2⟩
    · rw [born_old hc]
      exact hi.unfreed c p hb
  · rw [noteExpiry, noteExpiry, born_old (hedge c p h)]
    rcases born_edge h with ⟨rfl, hb⟩ | ⟨hc, hb⟩
    · exact (hi.born_linked hp hb).2
    · rw [born_old hc]
      exact hi.expiry_le c p hb

/-- The note that `malloc` returns, with its expiry time. -/
theorem setExpiryTime_malloc (s : Heap τ) (a : τ) :
    setExpiryTime (malloc s) s.notes a = Note.born s none a 0 := by
  ext1
  · funext x
    by_cases hx : x = s.notes
    · subst hx
      rw [born_new]
      simp [setExpiryTime, malloc, bornExpiry, bornParent]
    · simp [born_old hx, setExpiryTime, malloc, hx, bornParent]
  · rfl

/-- The new note has no children yet, so that only itself can be told. -/
theorem expire_new (hi : Inv s) (a now : τ) :
    expire (Note.born s none a 0) s.notes now = Note.born s none a now := by
  set u := Note.born s none a 0 with hu
  have hiu : Inv u := hi.born (by simp)
  have hnone : u.parent s.notes = none := by simp [hu, Heap.parent, born_new, bornParent]
  have htime : (u.note s.notes).notifiedTime = a := by
    simp only [hu, born_new, Note.notifiedTime, bornExpiry, ite_self]
    simp
  have hbelow : ∀ x, Below u.parent s.notes x ↔ x = s.notes := by
    intro x
    refine ⟨fun h => ?_, fun h => h ▸ Below.refl⟩
    rcases h.eq_or_child with heq | ⟨c, hc, -⟩
    · exact heq
    · have hmem := (hiu.mem_iff _ c).mpr hc
      rw [hu, born_new] at hmem
      exact absurd hmem List.not_mem_nil
  rw [expire, htime]
  split
  case isTrue ha =>
    ext1
    · funext x
      by_cases hx : x = s.notes
      · rw [tell_below ((hbelow x).mpr hx), hx, hu, born_new, born_new]
        simp [shut, ha, bornExpiry, bornParent]
      · rw [tell_far hiu.toLinked (fun h => hx ((hbelow x).mp h)) (by simp [hnone]), hu, born_old hx,
          born_old hx]
        simp [bornParent]
    · rfl
  case isFalse ha =>
    ext1
    · funext x
      by_cases hx : x = s.notes
      · rw [hx, hu, born_new, born_new]
        simp [ha, bornExpiry, bornParent]
      · rw [hu, born_old hx, born_old hx]
        simp [bornParent]
    · rfl

/-- The critical section on the parent, for a note that is not notified. -/
theorem link_new (hi : Inv s) (hp : s.Live p) (h0 : 0 < a) (hnow : now < a) :
    (lock (Note.born s none a now) p).bind (fun v => some (unlock (link v s.notes p a) p)) =
      some (Note.born s (some p) a now) := by
  have hpn : p ≠ s.notes := hp.1.ne
  have hmu : ((Note.born s none a now).note p).noteMu = none := by
    rw [born_old hpn]
    exact hi.mu p
  rw [lock_of_free hmu, Option.bind_some]
  set v := (Note.born s none a now).set p
    { (Note.born s none a now).note p with noteMu := some () } with hv
  have hvp : v.note p = { s.note p with noteMu := some () } := by
    simp [hv, born_old hpn, bornParent]
  have hvn : v.note s.notes =
      ⟨true, a, none, 0, false, none, [], [], false⟩ := by
    simp [hv, hpn.symm, born_new, bornExpiry, bornParent, hnow.not_ge]
  have hvx : ∀ x, x ≠ s.notes → x ≠ p → v.note x = s.note x := by
    intro x hxn hxp
    simp [hv, hxp, born_old hxn, bornParent]
  have htime : (v.note p).notifiedTime = (s.note p).notifiedTime := by
    rw [hvp]
    rfl
  have hexp : bornExpiry s (some p) a now = min a (s.note p).notifiedTime := by
    simp [bornExpiry, h0.not_ge, hnow.not_ge]
  have hpar : bornParent s (some p) a now =
      if 0 < (s.note p).notifiedTime then some p else none := by
    simp [bornParent, h0.not_ge, hnow.not_ge, Option.filter]
  have hsmu := hi.mu p
  have hvs : v.notes = s.notes + 1 := rfl
  clear_value v
  congr 1
  ext1
  · funext x
    rcases eq_or_ne x s.notes with rfl | hxn
    · rw [born_new, hexp, hpar]
      rcases lt_or_ge (s.note p).notifiedTime a with hlt | hge
      · by_cases hpos : 0 < (s.note p).notifiedTime <;>
          simp [unlock, link, htime, hpos, hlt, hlt.le, hpn.symm, setExpiryTime, hvn, hnow.not_ge]
      · by_cases hpos : 0 < (s.note p).notifiedTime <;>
          simp [unlock, link, htime, hpos, hge, hge.not_gt, hpn.symm, hvn, hnow.not_ge]
    · rw [born_old hxn, hpar]
      rcases eq_or_ne x p with rfl | hxp
      · rcases lt_or_ge (s.note x).notifiedTime a with hlt | hge
        · by_cases hpos : 0 < (s.note x).notifiedTime <;>
            simp only [unlock, link, htime, hpos, hlt, if_true, if_false] <;>
            simp [hpn, setExpiryTime, hvp, hsmu]
        · by_cases hpos : 0 < (s.note x).notifiedTime <;>
            simp only [unlock, link, htime, hpos, hge.not_gt, if_true, if_false] <;>
            simp [hpn, hvp, hsmu]
      · rcases lt_or_ge (s.note p).notifiedTime a with hlt | hge
        · by_cases hpos : 0 < (s.note p).notifiedTime <;>
            simp [unlock, link, htime, hpos, hlt, hxn, hxp, hxp.symm, setExpiryTime, hvx]
        · by_cases hpos : 0 < (s.note p).notifiedTime <;>
            simp [unlock, link, htime, hpos, hge.not_gt, hxn, hxp, hxp.symm, hvx]
  · simp only [unlock, link, setExpiryTime]
    split <;> split <;> exact hvs

theorem noteNew_eq (hi : Inv s) (hp : ∀ q, parent = some q → s.Live q) (a now : τ) :
    noteNew s parent a true now = some (Note.born s parent a now, some s.notes) := by
  have htime : ((Note.born s none a 0).note s.notes).notifiedTime = a := by
    simp only [born_new, Note.notifiedTime, bornExpiry, ite_self]
    simp
  have hiu : Inv (Note.born s none a 0) := hi.born (by simp)
  simp only [noteNew, if_true, setExpiryTime_malloc, noteIsNotified_eq hiu,
    Option.bind_eq_bind, Option.bind_some, expire_new hi, Heap.Heard, htime]
  by_cases ha : a ≤ 0 ∨ a ≤ now
  · have hborn : Note.born s none a now = Note.born s parent a now := by
      simp [Note.born, bornExpiry, bornParent, ha]
    simp [ha, hborn]
  · cases parent with
    | none => simp [ha]
    | some p =>
      push Not at ha
      have hlink := link_new hi (hp p rfl) ha.1 ha.2
      simp only [ha.1.not_ge, ha.2.not_ge, or_self, decide_false]
      cases hl : lock (Note.born s none a now) p with
      | none => simp [hl] at hlink
      | some v =>
        rw [hl, Option.bind_some] at hlink
        simp [Option.some.inj hlink]

end

end Nsync.Note
