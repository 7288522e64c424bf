import Mathlib.Data.List.Nodup
import Mathlib.Data.List.Perm.Basic
import Mathlib.Logic.Function.Basic

/-!
# Waiting for objects to become ready

Threads wait for objects with records of their own.  A record joins an object: it is
queued if the object is not ready, and passed otherwise.  Whoever makes an object
ready takes the records off its list one by one, clears their flags and posts their
semaphores.  A record leaves its object when nobody is busy with the list.
-/

set_option linter.unusedSectionVars false

namespace Nsync.Lib

/-- What a thread is busy with when it wakes the records of an object. -/
inductive Waker (V N : Type*) where
  | idle
  | waking (v : V)
  /-- The record has been taken off the list. -/
  | popped (v : V) (nw : N)
  /-- The flag of the record has been cleared. -/
  | cleared (v : V) (nw : N)

/-- The object whose records are being woken. -/
def Waker.on {V N : Type*} : Waker V N → Option V
  | .idle => none
  | .waking v | .popped v _ | .cleared v _ => some v

/-- The records `N` of the threads `T` at the objects `V`.  The field `posts` counts the
posts since a record was queued. -/
structure Board (T V N : Type*) where
  list : V → List N
  ready : V → Prop
  joined : T → List (N × V)
  waker : T → Waker V N
  waiting : N → Bool
  posts : N → ℕ

namespace Board

variable {T V N : Type*}

/-- Nobody uses the record. -/
def Unused (b : Board T V N) (nw : N) : Prop := ∀ u v, (nw, v) ∉ b.joined u

/-- Nobody wakes the records of the object. -/
def Quiet (b : Board T V N) (v : V) : Prop := ∀ u, (b.waker u).on ≠ some v

structure Good (b : Board T V N) : Prop where
  owner : ∀ t u nw v v', (nw, v) ∈ b.joined t → (nw, v') ∈ b.joined u → t = u ∧ v = v'
  distinct : ∀ t, ((b.joined t).map Prod.fst).Nodup
  listed : ∀ nw v, nw ∈ b.list v → ∃ t, (nw, v) ∈ b.joined t
  nodup : ∀ v, (b.list v).Nodup
  kept : ∀ t nw v, (nw, v) ∈ b.joined t → ¬ b.ready v → nw ∈ b.list v
  drained : ∀ v, b.ready v → b.Quiet v → b.list v = []
  ready : ∀ t v, (b.waker t).on = some v → b.ready v
  single : ∀ t u v, (b.waker t).on = some v → (b.waker u).on = some v → t = u
  queued : ∀ nw v, nw ∈ b.list v → b.waiting nw = true ∧ b.posts nw = 0
  popped : ∀ t nw v, b.waker t = .popped v nw → (∃ u, (nw, v) ∈ b.joined u) ∧ nw ∉ b.list v ∧
    b.waiting nw = true ∧ b.posts nw = 0
  cleared : ∀ t nw v, b.waker t = .cleared v nw → (∃ u, (nw, v) ∈ b.joined u) ∧ nw ∉ b.list v ∧
    b.waiting nw = false ∧ b.posts nw = 0
  passed : ∀ t nw v, (nw, v) ∈ b.joined t → nw ∉ b.list v → (∀ u, b.waker u ≠ .popped v nw) →
    b.waiting nw = false

/-- The boards agree on the records in use. -/
structure Like (b b' : Board T V N) : Prop where
  list : ∀ v, b'.list v = b.list v
  ready : ∀ u nw v, (nw, v) ∈ b.joined u → (b'.ready v ↔ b.ready v)
  waking : ∀ u v, (b.waker u).on = some v → b'.ready v
  joined : ∀ u, (b'.joined u).Perm (b.joined u)
  waker : ∀ u, b'.waker u = b.waker u
  waiting : ∀ u nw v, (nw, v) ∈ b.joined u → b'.waiting nw = b.waiting nw
  posts : ∀ u nw v, (nw, v) ∈ b.joined u → b'.posts nw = b.posts nw

variable {b b' : Board T V N} {t : T} {v : V} {nw : N}

theorem Good.not_mem_list (h : b.Good) (hn : b.Unused nw) (v : V) : nw ∉ b.list v := by
  intro hm
  obtain ⟨t, ht⟩ := h.listed nw v hm
  exact hn t v ht

theorem Good.like (h : b.Good) (hl : Like b b') : b'.Good := by
  have hjoin : ∀ {u nw v}, (nw, v) ∈ b'.joined u ↔ (nw, v) ∈ b.joined u :=
    fun {u nw v} => (hl.joined u).mem_iff
  have hwait : ∀ {nw v}, nw ∈ b.list v → b'.waiting nw = b.waiting nw ∧ b'.posts nw = b.posts nw := by
    intro nw v hm
    obtain ⟨u, hu⟩ := h.listed nw v hm
    exact ⟨hl.waiting u nw v hu, hl.posts u nw v hu⟩
  constructor
  · intro t u nw v v' ht hu
    exact h.owner t u nw v v' (hjoin.mp ht) (hjoin.mp hu)
  · intro t
    exact (((hl.joined t).map Prod.fst).nodup_iff).mpr (h.distinct t)
  · intro nw v hm
    obtain ⟨t, ht⟩ := h.listed nw v (hl.list v ▸ hm)
    exact ⟨t, hjoin.mpr ht⟩
  · intro v
    rw [hl.list v]
    exact h.nodup v
  · intro t nw v ht hr
    rw [hl.list v]
    exact h.kept t nw v (hjoin.mp ht) fun hb => hr ((hl.ready t nw v (hjoin.mp ht)).mpr hb)
  · intro v hr hq
    rw [hl.list v]
    by_contra hne
    obtain ⟨nw, hm⟩ := List.exists_mem_of_ne_nil _ hne
    obtain ⟨u, hu⟩ := h.listed nw v hm
    refine hne (h.drained v ((hl.ready u nw v hu).mp hr) fun u => ?_)
    rw [← hl.waker u]
    exact hq u
  · intro t v ht
    rw [hl.waker t] at ht
    exact hl.waking t v ht
  · intro t u v ht hu
    rw [hl.waker] at ht hu
    exact h.single t u v ht hu
  · intro nw v hm
    rw [hl.list v] at hm
    rw [(hwait hm).1, (hwait hm).2]
    exact h.queued nw v hm
  · intro t nw v ht
    rw [hl.waker] at ht
    obtain ⟨⟨u, hu⟩, hm, hw, hp⟩ := h.popped t nw v ht
    rw [hl.list v, hl.waiting u nw v hu, hl.posts u nw v hu]
    exact ⟨⟨u, hjoin.mpr hu⟩, hm, hw, hp⟩
  · intro t nw v ht
    rw [hl.waker] at ht
    obtain ⟨⟨u, hu⟩, hm, hw, hp⟩ := h.cleared t nw v ht
    rw [hl.list v, hl.waiting u nw v hu, hl.posts u nw v hu]
    exact ⟨⟨u, hjoin.mpr hu⟩, hm, hw, hp⟩
  · intro t nw v ht hm hp
    rw [hl.list v] at hm
    rw [hl.waiting t nw v (hjoin.mp ht)]
    refine h.passed t nw v (hjoin.mp ht) hm fun u => ?_
    rw [← hl.waker u]
    exact hp u

section

variable [DecidableEq T]

/-! ## Joining -/

theorem mem_joined_update {u : T} {x : N} {y : V} :
    (x, y) ∈ Function.update b.joined t ((nw, v) :: b.joined t) u ↔
      (u = t ∧ x = nw ∧ y = v) ∨ (x, y) ∈ b.joined u := by
  by_cases hu : u = t
  · subst hu
    simp
  · simp [hu]

theorem Good.owner_join (h : b.Good) (hn : b.Unused nw) {t₁ t₂ : T} {x : N} {y y' : V}
    (h₁ : (x, y) ∈ Function.update b.joined t ((nw, v) :: b.joined t) t₁)
    (h₂ : (x, y') ∈ Function.update b.joined t ((nw, v) :: b.joined t) t₂) : t₁ = t₂ ∧ y = y' := by
  rcases mem_joined_update.mp h₁ with ⟨ht₁, hx₁, hy₁⟩ | hm₁ <;>
    rcases mem_joined_update.mp h₂ with ⟨ht₂, hx₂, hy₂⟩ | hm₂
  · exact ⟨ht₁.trans ht₂.symm, hy₁.trans hy₂.symm⟩
  · exact absurd (hx₁ ▸ hm₂) (hn _ _)
  · exact absurd (hx₂ ▸ hm₁) (hn _ _)
  · exact h.owner _ _ _ _ _ hm₁ hm₂

theorem Good.distinct_join (h : b.Good) (hn : b.Unused nw) (u : T) :
    ((Function.update b.joined t ((nw, v) :: b.joined t) u).map Prod.fst).Nodup := by
  by_cases hu : u = t
  · subst hu
    rw [Function.update_self, List.map_cons, List.nodup_cons]
    refine ⟨fun hm => ?_, h.distinct u⟩
    obtain ⟨⟨x, y⟩, hxy, rfl⟩ := List.mem_map.mp hm
    exact hn u y hxy
  · rw [Function.update_of_ne hu]
    exact h.distinct u

variable [DecidableEq V] [DecidableEq N]

/-- The record joins the object and is queued. -/
def push (b : Board T V N) (t : T) (v : V) (nw : N) : Board T V N :=
  { b with
    list := Function.update b.list v (b.list v ++ [nw])
    joined := Function.update b.joined t ((nw, v) :: b.joined t)
    waiting := Function.update b.waiting nw true
    posts := Function.update b.posts nw 0 }

/-- The record joins the object, which is ready. -/
def pass (b : Board T V N) (t : T) (v : V) (nw : N) : Board T V N :=
  { b with
    joined := Function.update b.joined t ((nw, v) :: b.joined t)
    waiting := Function.update b.waiting nw false }

theorem Good.push (h : b.Good) (hr : ¬ b.ready v) (hn : b.Unused nw) : (b.push t v nw).Good := by
  have hlist : ∀ {x y}, x ∈ (b.push t v nw).list y ↔ x ∈ b.list y ∨ (x = nw ∧ y = v) := by
    intro x y
    by_cases hy : y = v
    · subst hy
      simp [Board.push]
    · simp [Board.push, hy]
  have hne : ∀ {u x y}, (x, y) ∈ b.joined u → x ≠ nw := by
    rintro u x y hm rfl
    exact hn u y hm
  have hwait : ∀ {x}, x ≠ nw → (b.push t v nw).waiting x = b.waiting x ∧
      (b.push t v nw).posts x = b.posts x := by
    intro x hx
    exact ⟨Function.update_of_ne hx _ _, Function.update_of_ne hx _ _⟩
  have hjoin : ∀ {u x y}, (x, y) ∈ b.joined u → (x, y) ∈ (b.push t v nw).joined u :=
    fun hm => mem_joined_update.mpr (Or.inr hm)
  constructor
  · intro t₁ t₂ x y y' h₁ h₂
    exact h.owner_join hn h₁ h₂
  · exact h.distinct_join hn
  · intro x y hm
    rcases hlist.mp hm with hm | ⟨rfl, rfl⟩
    · obtain ⟨u, hu⟩ := h.listed x y hm
      exact ⟨u, hjoin hu⟩
    · exact ⟨t, mem_joined_update.mpr (Or.inl ⟨rfl, rfl, rfl⟩)⟩
  · intro y
    by_cases hy : y = v
    · subst hy
      simp only [Board.push, Function.update_self]
      refine List.Nodup.append (h.nodup y) (List.nodup_singleton nw) ?_
      exact List.disjoint_singleton.mpr (h.not_mem_list hn y)
    · simp only [Board.push, Function.update_of_ne hy]
      exact h.nodup y
  · intro u x y hm hy
    rcases mem_joined_update.mp hm with ⟨rfl, rfl, rfl⟩ | hm
    · exact hlist.mpr (Or.inr ⟨rfl, rfl⟩)
    · exact hlist.mpr (Or.inl (h.kept u x y hm hy))
  · intro y hy hq
    have hyv : y ≠ v := by
      rintro rfl
      exact hr hy
    simp only [Board.push, Function.update_of_ne hyv]
    exact h.drained y hy hq
  · exact h.ready
  · exact h.single
  · intro x y hm
    rcases hlist.mp hm with hm | ⟨rfl, rfl⟩
    · obtain ⟨u, hu⟩ := h.listed x y hm
      rw [(hwait (hne hu)).1, (hwait (hne hu)).2]
      exact h.queued x y hm
    · exact ⟨Function.update_self _ _ _, Function.update_self _ _ _⟩
  · intro u x y hu
    obtain ⟨⟨u', hu'⟩, hm, hw, hp⟩ := h.popped u x y hu
    rw [(hwait (hne hu')).1, (hwait (hne hu')).2]
    refine ⟨⟨u', hjoin hu'⟩, fun hm' => ?_, hw, hp⟩
    rcases hlist.mp hm' with hm' | ⟨rfl, rfl⟩
    · exact hm hm'
    · exact hne hu' rfl
  · intro u x y hu
    obtain ⟨⟨u', hu'⟩, hm, hw, hp⟩ := h.cleared u x y hu
    rw [(hwait (hne hu')).1, (hwait (hne hu')).2]
    refine ⟨⟨u', hjoin hu'⟩, fun hm' => ?_, hw, hp⟩
    rcases hlist.mp hm' with hm' | ⟨rfl, rfl⟩
    · exact hm hm'
    · exact hne hu' rfl
  · intro u x y hm hx hp
    rcases mem_joined_update.mp hm with ⟨rfl, rfl, rfl⟩ | hm
    · exact absurd (hlist.mpr (Or.inr ⟨rfl, rfl⟩)) hx
    · rw [(hwait (hne hm)).1]
      exact h.passed u x y hm (fun hm' => hx (hlist.mpr (Or.inl hm'))) hp

theorem Good.pass (h : b.Good) (hr : b.ready v) (hn : b.Unused nw) : (b.pass t v nw).Good := by
  have hne : ∀ {u x y}, (x, y) ∈ b.joined u → x ≠ nw := by
    rintro u x y hm rfl
    exact hn u y hm
  have hwait : ∀ {x}, x ≠ nw → (b.pass t v nw).waiting x = b.waiting x :=
    fun hx => Function.update_of_ne hx _ _
  have hjoin : ∀ {u x y}, (x, y) ∈ b.joined u → (x, y) ∈ (b.pass t v nw).joined u :=
    fun hm => mem_joined_update.mpr (Or.inr hm)
  constructor
  · intro t₁ t₂ x y y' h₁ h₂
    exact h.owner_join hn h₁ h₂
  · exact h.distinct_join hn
  · intro x y hm
    obtain ⟨u, hu⟩ := h.listed x y hm
    exact ⟨u, hjoin hu⟩
  · exact h.nodup
  · intro u x y hm hy
    rcases mem_joined_update.mp hm with ⟨rfl, rfl, rfl⟩ | hm
    · exact absurd hr hy
    · exact h.kept u x y hm hy
  · exact h.drained
  · exact h.ready
  · exact h.single
  · intro x y hm
    obtain ⟨u, hu⟩ := h.listed x y hm
    rw [hwait (hne hu)]
    exact h.queued x y hm
  · intro u x y hu
    obtain ⟨⟨u', hu'⟩, hm, hw, hp⟩ := h.popped u x y hu
    rw [hwait (hne hu')]
    exact ⟨⟨u', hjoin hu'⟩, hm, hw, hp⟩
  · intro u x y hu
    obtain ⟨⟨u', hu'⟩, hm, hw, hp⟩ := h.cleared u x y hu
    rw [hwait (hne hu')]
    exact ⟨⟨u', hjoin hu'⟩, hm, hw, hp⟩
  · intro u x y hm hx hp
    rcases mem_joined_update.mp hm with ⟨rfl, rfl, rfl⟩ | hm
    · exact Function.update_self _ _ _
    · rw [hwait (hne hm)]
      exact h.passed u x y hm hx hp

/-! ## Leaving -/

/-- The record leaves the object, with `w` in its flag. -/
def leave (b : Board T V N) (t : T) (v : V) (nw : N) (w : Bool) : Board T V N :=
  { b with
    list := Function.update b.list v ((b.list v).erase nw)
    joined := Function.update b.joined t ((b.joined t).erase (nw, v))
    waiting := Function.update b.waiting nw w }

theorem Good.leave (h : b.Good) (hj : (nw, v) ∈ b.joined t) (hq : b.Quiet v) (w : Bool) :
    (b.leave t v nw w).Good := by
  have hnd : (b.joined t).Nodup := List.Nodup.of_map _ (h.distinct t)
  have hjoin : ∀ {u x y}, (x, y) ∈ (b.leave t v nw w).joined u ↔ (x, y) ∈ b.joined u ∧ x ≠ nw := by
    intro u x y
    by_cases hu : u = t
    · subst hu
      simp only [Board.leave, Function.update_self, hnd.mem_erase_iff]
      constructor
      · rintro ⟨hne, hm⟩
        refine ⟨hm, ?_⟩
        rintro rfl
        rw [(h.owner u u x y v hm hj).2] at hne
        exact hne rfl
      · rintro ⟨hm, hne⟩
        refine ⟨fun heq => hne (congrArg Prod.fst heq), hm⟩
    · simp only [Board.leave, Function.update_of_ne hu]
      refine ⟨fun hm => ⟨hm, ?_⟩, And.left⟩
      rintro rfl
      exact hu (h.owner u t x y v hm hj).1
  have hlist : ∀ {x y}, x ∈ (b.leave t v nw w).list y ↔ x ∈ b.list y ∧ x ≠ nw := by
    intro x y
    by_cases hy : y = v
    · subst hy
      simp only [Board.leave, Function.update_self, (h.nodup y).mem_erase_iff]
      exact And.comm
    · simp only [Board.leave, Function.update_of_ne hy]
      refine ⟨fun hm => ⟨hm, ?_⟩, And.left⟩
      rintro rfl
      obtain ⟨u, hu⟩ := h.listed x y hm
      exact hy (h.owner u t x y v hu hj).2
  have hwait : ∀ {x}, x ≠ nw → (b.leave t v nw w).waiting x = b.waiting x :=
    fun hx => Function.update_of_ne hx _ _
  -- The record that is being woken is at another object.
  have hother : ∀ {u x y u'}, (b.waker u).on = some y → (x, y) ∈ b.joined u' → x ≠ nw := by
    rintro u x y u' hu hx rfl
    rw [(h.owner u' t x y v hx hj).2] at hu
    exact hq u hu
  constructor
  · intro t₁ t₂ x y y' h₁ h₂
    exact h.owner _ _ _ _ _ (hjoin.mp h₁).1 (hjoin.mp h₂).1
  · intro u
    by_cases hu : u = t
    · subst hu
      simp only [Board.leave, Function.update_self]
      exact ((List.erase_sublist (a := (nw, v)) (l := b.joined u)).map Prod.fst).nodup (h.distinct u)
    · simp only [Board.leave, Function.update_of_ne hu]
      exact h.distinct u
  · intro x y hm
    obtain ⟨hm, hx⟩ := hlist.mp hm
    obtain ⟨u, hu⟩ := h.listed x y hm
    exact ⟨u, hjoin.mpr ⟨hu, hx⟩⟩
  · intro y
    by_cases hy : y = v
    · subst hy
      simp only [Board.leave, Function.update_self]
      exact (h.nodup y).erase nw
    · simp only [Board.leave, Function.update_of_ne hy]
      exact h.nodup y
  · intro u x y hm hy
    obtain ⟨hm, hx⟩ := hjoin.mp hm
    exact hlist.mpr ⟨h.kept u x y hm hy, hx⟩
  · intro y hy hyq
    have hnil := h.drained y hy hyq
    refine List.eq_nil_iff_forall_not_mem.mpr fun x hm => ?_
    have := (hlist.mp hm).1
    rw [hnil] at this
    exact List.not_mem_nil this
  · exact h.ready
  · exact h.single
  · intro x y hm
    obtain ⟨hm, hx⟩ := hlist.mp hm
    rw [hwait hx]
    exact h.queued x y hm
  · intro u x y hu
    obtain ⟨⟨u', hu'⟩, hm, hw, hp⟩ := h.popped u x y hu
    have hx : x ≠ nw := hother (congrArg Waker.on hu) hu'
    rw [hwait hx]
    exact ⟨⟨u', hjoin.mpr ⟨hu', hx⟩⟩, fun hm' => hm (hlist.mp hm').1, hw, hp⟩
  · intro u x y hu
    obtain ⟨⟨u', hu'⟩, hm, hw, hp⟩ := h.cleared u x y hu
    have hx : x ≠ nw := hother (congrArg Waker.on hu) hu'
    rw [hwait hx]
    exact ⟨⟨u', hjoin.mpr ⟨hu', hx⟩⟩, fun hm' => hm (hlist.mp hm').1, hw, hp⟩
  · intro u x y hm hx hp
    obtain ⟨hm, hxn⟩ := hjoin.mp hm
    rw [hwait hxn]
    exact h.passed u x y hm (fun hm' => hx (hlist.mpr ⟨hm', hxn⟩)) hp

/-! ## Waking -/

/-- The thread makes the object ready. -/
def rouse (b : Board T V N) (t : T) (v : V) : Board T V N :=
  { b with
    ready := fun x => x = v ∨ b.ready x
    waker := Function.update b.waker t (.waking v) }

/-- The thread goes on to wake another record. -/
def pop (b : Board T V N) (t : T) (v : V) (nw : N) : Board T V N :=
  { b with
    list := Function.update b.list v (b.list v).tail
    waker := Function.update b.waker t (.popped v nw) }

def clear (b : Board T V N) (t : T) (v : V) (nw : N) : Board T V N :=
  { b with
    waiting := Function.update b.waiting nw false
    waker := Function.update b.waker t (.cleared v nw) }

def post (b : Board T V N) (t : T) (v : V) (nw : N) : Board T V N :=
  { b with
    posts := Function.update b.posts nw (b.posts nw + 1)
    waker := Function.update b.waker t (.waking v) }

/-- All records have been woken. -/
def finish (b : Board T V N) (t : T) : Board T V N :=
  { b with waker := Function.update b.waker t .idle }

/-! A thread becomes the waker `w`. -/

section

variable {u : T} {w w' : Waker V N}

/-- The thread goes on with the same object. -/
theorem on_update (hw : (b.waker t).on = w.on) (u : T) :
    (Function.update b.waker t w u).on = (b.waker u).on := by
  by_cases hu : u = t
  · subst hu
    rw [Function.update_self, hw]
  · rw [Function.update_of_ne hu]

theorem of_update (hu : Function.update b.waker t w u = w') (hw : w' ≠ w) :
    u ≠ t ∧ b.waker u = w' := by
  have hut : u ≠ t := by
    rintro rfl
    rw [Function.update_self] at hu
    exact hw hu.symm
  rw [Function.update_of_ne hut] at hu
  exact ⟨hut, hu⟩

theorem to_update (hu : b.waker u = w') (hw : b.waker t ≠ w') :
    Function.update b.waker t w u = w' := by
  have hut : u ≠ t := by
    rintro rfl
    exact hw hu
  rwa [Function.update_of_ne hut]

end

theorem Good.rouse (h : b.Good) (ht : b.waker t = .idle) (hq : b.Quiet v) : (b.rouse t v).Good := by
  have hon : ∀ {u y}, ((b.rouse t v).waker u).on = some y →
      (u = t ∧ y = v) ∨ (b.waker u).on = some y := by
    intro u y hu
    change (Function.update b.waker t (.waking v) u).on = some y at hu
    by_cases hut : u = t
    · subst hut
      rw [Function.update_self] at hu
      exact Or.inl ⟨rfl, (Option.some.inj hu).symm⟩
    · rw [Function.update_of_ne hut] at hu
      exact Or.inr hu
  constructor
  · exact h.owner
  · exact h.distinct
  · exact h.listed
  · exact h.nodup
  · intro u x y hm hy
    exact h.kept u x y hm fun hr => hy (Or.inr hr)
  · intro y hy hyq
    have hyv : y ≠ v := by
      rintro rfl
      exact hyq t (by simp [Board.rouse, Waker.on])
    refine h.drained y (hy.resolve_left hyv) fun u hu => ?_
    have hu' : (b.rouse t v).waker u = b.waker u :=
      to_update rfl fun heq => by
        rw [← heq, ht] at hu
        cases hu
    exact hyq u (hu' ▸ hu)
  · intro u y hu
    rcases hon hu with ⟨-, rfl⟩ | hu
    · exact Or.inl rfl
    · exact Or.inr (h.ready u y hu)
  · intro t₁ t₂ y h₁ h₂
    rcases hon h₁ with ⟨ht₁, hy₁⟩ | ho₁ <;> rcases hon h₂ with ⟨ht₂, hy₂⟩ | ho₂
    · exact ht₁.trans ht₂.symm
    · exact absurd (hy₁ ▸ ho₂) (hq t₂)
    · exact absurd (hy₂ ▸ ho₁) (hq t₁)
    · exact h.single t₁ t₂ y ho₁ ho₂
  · exact h.queued
  · intro u x y hu
    exact h.popped u x y (of_update hu (by simp)).2
  · intro u x y hu
    exact h.cleared u x y (of_update hu (by simp)).2
  · intro u x y hm hx hp
    exact h.passed u x y hm hx fun u' hu' => hp u' (to_update hu' (by simp [ht]))

theorem Good.pop (h : b.Good) (ht : b.waker t = .waking v) (hnw : (b.list v).head? = some nw) :
    (b.pop t v nw).Good := by
  obtain ⟨l, hl⟩ : ∃ l, b.list v = nw :: l := List.head?_eq_some_iff.mp hnw
  have hmem : nw ∈ b.list v := hl ▸ List.mem_cons_self
  have hnd := h.nodup v
  rw [hl, List.nodup_cons] at hnd
  have hlist : ∀ {x y}, x ∈ (b.pop t v nw).list y ↔ x ∈ b.list y ∧ x ≠ nw := by
    intro x y
    by_cases hy : y = v
    · subst hy
      simp only [Board.pop, Function.update_self, hl, List.tail_cons, List.mem_cons]
      constructor
      · intro hm
        exact ⟨Or.inr hm, fun hx => hnd.1 (hx ▸ hm)⟩
      · rintro ⟨hx | hm, hne⟩
        · exact absurd hx hne
        · exact hm
    · simp only [Board.pop, Function.update_of_ne hy]
      refine ⟨fun hm => ⟨hm, ?_⟩, And.left⟩
      rintro rfl
      obtain ⟨u, hu⟩ := h.listed x y hm
      obtain ⟨u', hu'⟩ := h.listed x v hmem
      exact hy (h.owner u u' x y v hu hu').2
  have hon : ∀ u, ((b.pop t v nw).waker u).on = (b.waker u).on :=
    on_update (by rw [ht]; rfl)
  constructor
  · exact h.owner
  · exact h.distinct
  · intro x y hm
    exact h.listed x y (hlist.mp hm).1
  · intro y
    by_cases hy : y = v
    · subst hy
      simp only [Board.pop, Function.update_self, hl, List.tail_cons]
      exact hnd.2
    · simp only [Board.pop, Function.update_of_ne hy]
      exact h.nodup y
  · intro u x y hm hy
    refine hlist.mpr ⟨h.kept u x y hm hy, ?_⟩
    rintro rfl
    obtain ⟨u', hu'⟩ := h.listed x v hmem
    obtain ⟨-, rfl⟩ := h.owner u u' x y v hm hu'
    exact hy (h.ready t y (by rw [ht]; rfl))
  · intro y hy hyq
    have hnil := h.drained y hy fun u => hon u ▸ hyq u
    refine List.eq_nil_iff_forall_not_mem.mpr fun x hm => ?_
    have := (hlist.mp hm).1
    rw [hnil] at this
    exact List.not_mem_nil this
  · intro u y hu
    exact h.ready u y (hon u ▸ hu)
  · intro t₁ t₂ y h₁ h₂
    exact h.single t₁ t₂ y (hon t₁ ▸ h₁) (hon t₂ ▸ h₂)
  · intro x y hm
    exact h.queued x y (hlist.mp hm).1
  · intro u x y hu
    by_cases hx : x = nw ∧ y = v
    · obtain ⟨rfl, rfl⟩ := hx
      exact ⟨h.listed x y hmem, fun hm => (hlist.mp hm).2 rfl, h.queued x y hmem⟩
    · have hu' : b.waker u = .popped y x := by
        refine (of_update hu fun heq => hx ?_).2
        cases heq
        exact ⟨rfl, rfl⟩
      obtain ⟨hj, hm, hw⟩ := h.popped u x y hu'
      exact ⟨hj, fun hm' => hm (hlist.mp hm').1, hw⟩
  · intro u x y hu
    obtain ⟨hj, hm, hw⟩ := h.cleared u x y (of_update hu (by simp)).2
    exact ⟨hj, fun hm' => hm (hlist.mp hm').1, hw⟩
  · intro u x y hm hx hp
    refine h.passed u x y hm (fun hm' => hx (hlist.mpr ⟨hm', ?_⟩)) fun u' hu' =>
      hp u' (to_update hu' (by simp [ht]))
    rintro rfl
    obtain ⟨u', hu'⟩ := h.listed x v hmem
    obtain ⟨-, rfl⟩ := h.owner u u' x y v hm hu'
    exact hp t (Function.update_self _ _ _)

/-- Another waker is busy with another record. -/
theorem Good.other_record (h : b.Good) {o u : T} {x : N} {y : V} (ht : (b.waker t).on = some v)
    (ho : (nw, v) ∈ b.joined o) (hu : u ≠ t) (hy : (b.waker u).on = some y)
    (hx : ∃ o, (x, y) ∈ b.joined o) : x ≠ nw := by
  rintro rfl
  obtain ⟨o', ho'⟩ := hx
  obtain ⟨-, rfl⟩ := h.owner o' o x y v ho' ho
  exact hu (h.single u t y hy ht)

/-- A record on a list is not one that a waker has taken off. -/
theorem Good.ne_of_mem_list (h : b.Good) {o : T} {x : N} {y : V} (ho : (nw, v) ∈ b.joined o)
    (hnw : nw ∉ b.list v) (hx : x ∈ b.list y) : x ≠ nw := by
  rintro rfl
  obtain ⟨o', ho'⟩ := h.listed x y hx
  obtain ⟨-, rfl⟩ := h.owner o' o x y v ho' ho
  exact hnw hx

theorem Good.clear (h : b.Good) (ht : b.waker t = .popped v nw) : (b.clear t v nw).Good := by
  obtain ⟨⟨o, ho⟩, hnl, hwt, hps⟩ := h.popped t nw v ht
  have hton : (b.waker t).on = some v := by rw [ht]; rfl
  have hon : ∀ u, ((b.clear t v nw).waker u).on = (b.waker u).on := on_update hton
  have hwait : ∀ {x}, x ≠ nw → (b.clear t v nw).waiting x = b.waiting x :=
    fun hx => Function.update_of_ne hx _ _
  constructor
  · exact h.owner
  · exact h.distinct
  · exact h.listed
  · exact h.nodup
  · exact h.kept
  · intro y hy hyq
    exact h.drained y hy fun u => hon u ▸ hyq u
  · intro u y hu
    exact h.ready u y (hon u ▸ hu)
  · intro t₁ t₂ y h₁ h₂
    exact h.single t₁ t₂ y (hon t₁ ▸ h₁) (hon t₂ ▸ h₂)
  · intro x y hm
    rw [hwait (h.ne_of_mem_list ho hnl hm)]
    exact h.queued x y hm
  · intro u x y hu
    obtain ⟨hut, hu⟩ := of_update hu (by simp)
    obtain ⟨hj, hm, hw⟩ := h.popped u x y hu
    rw [hwait (h.other_record hton ho hut (by rw [hu]; rfl) hj)]
    exact ⟨hj, hm, hw⟩
  · intro u x y hu
    by_cases hx : x = nw ∧ y = v
    · obtain ⟨rfl, rfl⟩ := hx
      exact ⟨⟨o, ho⟩, hnl, Function.update_self _ _ _, hps⟩
    · obtain ⟨hut, hu⟩ := of_update hu fun heq => hx (by cases heq; exact ⟨rfl, rfl⟩)
      obtain ⟨hj, hm, hw⟩ := h.cleared u x y hu
      rw [hwait (h.other_record hton ho hut (by rw [hu]; rfl) hj)]
      exact ⟨hj, hm, hw⟩
  · intro u x y hm hx hp
    by_cases hxn : x = nw
    · subst hxn
      exact Function.update_self _ _ _
    · rw [hwait hxn]
      refine h.passed u x y hm hx fun u' hu' => hp u' (to_update hu' ?_)
      rw [ht]
      intro heq
      cases heq
      exact hxn rfl

theorem Good.post (h : b.Good) (ht : b.waker t = .cleared v nw) : (b.post t v nw).Good := by
  obtain ⟨⟨o, ho⟩, hnl, hwt, hps⟩ := h.cleared t nw v ht
  have hton : (b.waker t).on = some v := by rw [ht]; rfl
  have hon : ∀ u, ((b.post t v nw).waker u).on = (b.waker u).on := on_update hton
  have hposts : ∀ {x}, x ≠ nw → (b.post t v nw).posts x = b.posts x :=
    fun hx => Function.update_of_ne hx _ _
  constructor
  · exact h.owner
  · exact h.distinct
  · exact h.listed
  · exact h.nodup
  · exact h.kept
  · intro y hy hyq
    exact h.drained y hy fun u => hon u ▸ hyq u
  · intro u y hu
    exact h.ready u y (hon u ▸ hu)
  · intro t₁ t₂ y h₁ h₂
    exact h.single t₁ t₂ y (hon t₁ ▸ h₁) (hon t₂ ▸ h₂)
  · intro x y hm
    rw [hposts (h.ne_of_mem_list ho hnl hm)]
    exact h.queued x y hm
  · intro u x y hu
    obtain ⟨hut, hu⟩ := of_update hu (by simp)
    obtain ⟨hj, hm, hw⟩ := h.popped u x y hu
    rw [hposts (h.other_record hton ho hut (by rw [hu]; rfl) hj)]
    exact ⟨hj, hm, hw⟩
  · intro u x y hu
    obtain ⟨hut, hu⟩ := of_update hu (by simp)
    obtain ⟨hj, hm, hw⟩ := h.cleared u x y hu
    rw [hposts (h.other_record hton ho hut (by rw [hu]; rfl) hj)]
    exact ⟨hj, hm, hw⟩
  · intro u x y hm hx hp
    exact h.passed u x y hm hx fun u' hu' => hp u' (to_update hu' (by simp [ht]))

theorem Good.finish (h : b.Good) (ht : b.waker t = .waking v) (hnil : b.list v = []) :
    (b.finish t).Good := by
  have hon : ∀ {u y}, ((b.finish t).waker u).on = some y → (b.waker u).on = some y := by
    intro u y hu
    have hne : (b.finish t).waker u ≠ .idle := fun hidle => by
      rw [hidle] at hu
      cases hu
    rw [(of_update (b := b) (w := .idle) rfl hne).2]
    exact hu
  constructor
  · exact h.owner
  · exact h.distinct
  · exact h.listed
  · exact h.nodup
  · exact h.kept
  · intro y hy hyq
    by_cases hyv : y = v
    · subst hyv
      exact hnil
    · refine h.drained y hy fun u hu => hyq u ?_
      have hu' : (b.finish t).waker u = b.waker u :=
        to_update rfl fun heq => by
          rw [← heq, ht] at hu
          exact hyv (Option.some.inj hu).symm
      exact hu' ▸ hu
  · intro u y hu
    exact h.ready u y (hon hu)
  · intro t₁ t₂ y h₁ h₂
    exact h.single t₁ t₂ y (hon h₁) (hon h₂)
  · exact h.queued
  · intro u x y hu
    exact h.popped u x y (of_update hu (by simp)).2
  · intro u x y hu
    exact h.cleared u x y (of_update hu (by simp)).2
  · intro u x y hm hx hp
    exact h.passed u x y hm hx fun u' hu' => hp u' (to_update hu' (by simp [ht]))

/-! ## Steps -/

/-- What can happen to the records. -/
inductive Move (b : Board T V N) : Board T V N → Prop where
  | still : Move b b
  | push (t : T) (v : V) (nw : N) (hr : ¬ b.ready v) (hn : b.Unused nw) : Move b (b.push t v nw)
  | pass (t : T) (v : V) (nw : N) (hr : b.ready v) (hn : b.Unused nw) : Move b (b.pass t v nw)
  | leave (t : T) (v : V) (nw : N) (w : Bool) (hj : (nw, v) ∈ b.joined t) (hq : b.Quiet v) :
      Move b (b.leave t v nw w)
  | rouse (t : T) (v : V) (ht : b.waker t = .idle) (hq : b.Quiet v) : Move b (b.rouse t v)
  | pop (t : T) (v : V) (nw : N) (ht : b.waker t = .waking v) (hnw : (b.list v).head? = some nw) :
      Move b (b.pop t v nw)
  | clear (t : T) (v : V) (nw : N) (ht : b.waker t = .popped v nw) : Move b (b.clear t v nw)
  | post (t : T) (v : V) (nw : N) (ht : b.waker t = .cleared v nw) : Move b (b.post t v nw)
  | finish (t : T) (v : V) (ht : b.waker t = .waking v) (hnil : b.list v = []) : Move b (b.finish t)

/-- The records in use move to `b'`. -/
def Moves (b b' : Board T V N) : Prop := ∃ c, Move b c ∧ Like c b'

theorem Move.moves {c : Board T V N} (hm : Move b c) (hl : Like c b') : b.Moves b' := ⟨c, hm, hl⟩

theorem Good.move (h : b.Good) (hm : Move b b') : b'.Good := by
  cases hm with
  | still => exact h
  | push t v nw hr hn => exact h.push hr hn
  | pass t v nw hr hn => exact h.pass hr hn
  | leave t v nw w hj hq => exact h.leave hj hq w
  | rouse t v ht hq => exact h.rouse ht hq
  | pop t v nw ht hnw => exact h.pop ht hnw
  | clear t v nw ht => exact h.clear ht
  | post t v nw ht => exact h.post ht
  | finish t v ht hnil => exact h.finish ht hnil

theorem Good.moves (h : b.Good) (hm : b.Moves b') : b'.Good := by
  obtain ⟨c, hc, hl⟩ := hm
  exact (h.move hc).like hl

/-! ## What happens to a record of an object that is ready -/

/-- The record was on the list when the object was ready: it still is, it is being woken,
or it has been woken once. -/
inductive Track (b : Board T V N) (nw : N) (v : V) : Prop where
  | listed (hm : nw ∈ b.list v) (hr : b.ready v)
  | popped (u : T) (hu : b.waker u = .popped v nw)
  | cleared (u : T) (hu : b.waker u = .cleared v nw)
  | woken (hm : nw ∉ b.list v) (hp : ∀ u, b.waker u ≠ .popped v nw)
      (hc : ∀ u, b.waker u ≠ .cleared v nw) (hposts : b.posts nw = 1)

theorem Track.like {o : T} (h : b.Track nw v) (hj : (nw, v) ∈ b.joined o) (hl : Like b b') :
    b'.Track nw v := by
  cases h with
  | listed hm hr => exact .listed (hl.list v ▸ hm) ((hl.ready o nw v hj).mpr hr)
  | popped u hu => exact .popped u ((hl.waker u).trans hu)
  | cleared u hu => exact .cleared u ((hl.waker u).trans hu)
  | woken hm hp hc hposts =>
    refine .woken (hl.list v ▸ hm) (fun u => hl.waker u ▸ hp u) (fun u => hl.waker u ▸ hc u) ?_
    rw [hl.posts o nw v hj, hposts]

/-- The list of the object changes only by other records, and the wakers go on. -/
theorem Track.of_list (h : b.Track nw v)
    (hlist : nw ∈ b'.list v ↔ nw ∈ b.list v) (hready : b.ready v → b'.ready v)
    (hpop : ∀ u, b'.waker u = .popped v nw ↔ b.waker u = .popped v nw)
    (hclear : ∀ u, b'.waker u = .cleared v nw ↔ b.waker u = .cleared v nw)
    (hposts : b'.posts nw = b.posts nw) : b'.Track nw v := by
  cases h with
  | listed hm hr => exact .listed (hlist.mpr hm) (hready hr)
  | popped u hu => exact .popped u ((hpop u).mpr hu)
  | cleared u hu => exact .cleared u ((hclear u).mpr hu)
  | woken hm hp hc hone =>
    exact .woken (fun hm' => hm (hlist.mp hm')) (fun u hu => hp u ((hpop u).mp hu))
      (fun u hu => hc u ((hclear u).mp hu)) (hposts.trans hone)

/-- A thread becomes the waker `w`, which is not busy with the record before or after. -/
theorem waker_update_iff {w w' : Waker V N} (ht : b.waker t ≠ w') (hw : w ≠ w') (u : T) :
    Function.update b.waker t w u = w' ↔ b.waker u = w' := by
  by_cases hu : u = t
  · subst hu
    rw [Function.update_self]
    exact iff_of_false hw ht
  · rw [Function.update_of_ne hu]

theorem Track.move {o : T} (h : b.Good) (hj : (nw, v) ∈ b.joined o) (ht : b.Track nw v)
    (hm : Move b b') (hj' : (nw, v) ∈ b'.joined o) : b'.Track nw v := by
  cases hm with
  | still => exact ht
  | push t y x hr hn =>
    have hne : nw ≠ x := by
      rintro rfl
      exact hn o v hj
    refine ht.of_list ?_ id (fun _ => Iff.rfl) (fun _ => Iff.rfl)
      (Function.update_of_ne hne _ _)
    by_cases hy : v = y
    · subst hy
      simp [Board.push, hne]
    · simp [Board.push, hy]
  | pass t y x hr hn =>
    exact ht.of_list Iff.rfl id (fun _ => Iff.rfl) (fun _ => Iff.rfl) rfl
  | leave t y x w hx hq =>
    have hne : nw ≠ x := by
      rintro rfl
      obtain ⟨rfl, rfl⟩ := h.owner o t nw v y hj hx
      change (nw, v) ∈ Function.update b.joined o ((b.joined o).erase (nw, v)) o at hj'
      rw [Function.update_self] at hj'
      exact (List.Nodup.of_map _ (h.distinct o)).not_mem_erase hj'
    refine ht.of_list ?_ id (fun _ => Iff.rfl) (fun _ => Iff.rfl) rfl
    by_cases hy : v = y
    · subst hy
      simp only [Board.leave, Function.update_self]
      exact List.mem_erase_of_ne hne
    · simp [Board.leave, hy]
  | rouse t y hidle hq =>
    refine ht.of_list Iff.rfl Or.inr (fun u => ?_) (fun u => ?_) rfl
    · exact waker_update_iff (by simp [hidle]) (by simp) u
    · exact waker_update_iff (by simp [hidle]) (by simp) u
  | pop t y x hwt hhead =>
    obtain ⟨l, hl⟩ : ∃ l, b.list y = x :: l := List.head?_eq_some_iff.mp hhead
    by_cases hxy : nw = x ∧ v = y
    · obtain ⟨rfl, rfl⟩ := hxy
      exact .popped t (Function.update_self _ _ _)
    · refine ht.of_list ?_ id (fun u => ?_) (fun u => ?_) rfl
      · by_cases hy : v = y
        · subst hy
          have hne : nw ≠ x := fun heq => hxy ⟨heq, rfl⟩
          simp [Board.pop, hl, hne]
        · simp [Board.pop, hy]
      · refine waker_update_iff (by simp [hwt]) (fun heq => hxy ?_) u
        cases heq
        exact ⟨rfl, rfl⟩
      · exact waker_update_iff (by simp [hwt]) (by simp) u
  | clear t y x hwt =>
    by_cases hxy : nw = x ∧ v = y
    · obtain ⟨rfl, rfl⟩ := hxy
      exact .cleared t (Function.update_self _ _ _)
    · have hother : ¬ (Waker.popped y x = Waker.popped v nw) := fun heq => by
        cases heq
        exact hxy ⟨rfl, rfl⟩
      refine ht.of_list Iff.rfl id (fun u => ?_) (fun u => ?_) rfl
      · exact waker_update_iff (by rwa [hwt]) (by simp) u
      · refine waker_update_iff (by simp [hwt]) (fun heq => hxy ?_) u
        cases heq
        exact ⟨rfl, rfl⟩
  | post t y x hwt =>
    by_cases hxy : nw = x ∧ v = y
    · obtain ⟨rfl, rfl⟩ := hxy
      obtain ⟨-, hnl, -, hzero⟩ := h.cleared t nw v hwt
      -- The thread that posts is the only one that wakes records of the object.
      have hsingle : ∀ u, (b.waker u).on = some v → u = t :=
        fun u hu => h.single u t v hu (by rw [hwt]; rfl)
      have hnone : ∀ u (w : Waker V N), w.on = some v → w ≠ .waking v →
          (b.post t v nw).waker u ≠ w := by
        intro u w hw hne hu
        obtain ⟨hut, hu⟩ := of_update hu hne
        exact hut (hsingle u (hu ▸ hw))
      refine .woken hnl (fun u => hnone u _ rfl (by simp)) (fun u => hnone u _ rfl (by simp)) ?_
      change Function.update b.posts nw (b.posts nw + 1) nw = 1
      rw [Function.update_self, hzero]
    · have hother : ¬ (Waker.cleared y x = Waker.cleared v nw) := fun heq => by
        cases heq
        exact hxy ⟨rfl, rfl⟩
      have hne : nw ≠ x := by
        rintro rfl
        obtain ⟨⟨o', ho'⟩, -⟩ := h.cleared t nw y hwt
        exact hxy ⟨rfl, (h.owner o o' nw v y hj ho').2⟩
      refine ht.of_list Iff.rfl id (fun u => ?_) (fun u => ?_)
        (Function.update_of_ne hne _ _)
      · exact waker_update_iff (by simp [hwt]) (by simp) u
      · exact waker_update_iff (by rwa [hwt]) (by simp) u
  | finish t y hwt hnil =>
    refine ht.of_list Iff.rfl id (fun u => ?_) (fun u => ?_) rfl
    · exact waker_update_iff (by simp [hwt]) (by simp) u
    · exact waker_update_iff (by simp [hwt]) (by simp) u

/-- A record that is still joined goes on to be woken. -/
theorem Track.moves {o : T} (h : b.Good) (hj : (nw, v) ∈ b.joined o) (ht : b.Track nw v)
    (hm : b.Moves b') (hj' : (nw, v) ∈ b'.joined o) : b'.Track nw v := by
  obtain ⟨c, hc, hl⟩ := hm
  have hjc : (nw, v) ∈ c.joined o := (hl.joined o).mem_iff.mp hj'
  exact (ht.move h hj hc hjc).like hjc hl

/-- When nobody is busy with the object, the record has been woken. -/
theorem Track.of_quiet {o : T} (h : b.Good) (hj : (nw, v) ∈ b.joined o) (ht : b.Track nw v)
    (hq : b.Quiet v) : nw ∉ b.list v ∧ b.waiting nw = false ∧ b.posts nw = 1 := by
  cases ht with
  | listed hm hr =>
    rw [h.drained v hr hq] at hm
    exact absurd hm List.not_mem_nil
  | popped u hu => exact absurd (by rw [hu]; rfl) (hq u)
  | cleared u hu => exact absurd (by rw [hu]; rfl) (hq u)
  | woken hm hp hc hposts => exact ⟨hm, h.passed o nw v hj hm hp, hposts⟩

end

end Board

end Nsync.Lib
