import Nsync.Pool.Step
import Nsync.Lib.Ownership

/-!
# Who has a waiter

Every waiter that is not on `free_waiters` belongs to one thread, and only that
thread reads or writes its flags.  The two flag bits say whether the thread has it
reserved and whether it has it in use; with both bits clear the thread is carrying
it to or from the list.
-/

namespace Nsync.Pool

open Nsync.Lib

variable {T W : Type}

/-! ## What the place of a thread says -/

namespace Pc

/-- The waiter that the thread has reserved without regard to its slot: it is being
put there, or the destructor has been called with it. -/
def reserving : Pc W → Option W
  | .once (.setSpecific w) _ | .setSpecific w | .setLocal w => some w
  | .destroyReset w | .destroyAssert w | .destroyClear w => some w
  | _ => none

/-- The waiter that the thread is giving back and whose flag is still set. -/
def inUse : Pc W → Option W
  | .freeAssert w | .freeClear w => some w
  | _ => none

/-- The waiter that the thread carries to or from the list. -/
def moving : Pc W → Option W
  | .newUnpack _ w | .newRelease _ (some w) | .newReserve _ w | .newUse w => some w
  | .freeTest w | .pushSpin w _ | .push w => some w
  | _ => none

/-- The thread may find that the waiter it carries is its reserved one. -/
def settled : Pc W → Bool
  | .newUse _ | .freeTest _ => true
  | _ => false

/-- The thread has `free_waiters_mu`. -/
def spinning : Pc W → Bool
  | .newFirst _ | .newRemove _ _ | .newUnpack _ _ | .newRelease _ _ | .push _ | .pushRelease => true
  | _ => false

/-- The number of keys there are while the thread creates one. -/
def creates : Pc W → Option ℕ
  | .once _ .create => some 0
  | .once _ .store => some 1
  | _ => none

/-- The thread is about to use the key. -/
def usesKey : Pc W → Bool
  | .getSpecific | .setSpecific _ => true
  | _ => false

/-- The waiter that the thread remembers as its reserved one. -/
def remembers : Pc W → Option (Option W)
  | .newCheck tw | .newSpin tw _ | .newFirst tw | .newRemove tw _ | .newUnpack tw _
  | .newRelease tw _ | .newMalloc tw | .newReserve tw _ => some tw
  | _ => none

/-- The value of the thread-local variable, with the value `slot` under the key. -/
def thisLocal (slot : Option W) : Pc W → Option W
  | .destroyReset w => some w
  | .setLocal _ => none
  | _ => slot

/-- The value under the key while the thread is `reserving`. -/
def thisSlot : Pc W → Option W
  | .setLocal w => some w
  | _ => none

end Pc

/-- The flags of a waiter. -/
def flagBits (reserved inUse : Bool) : Word :=
  (if reserved then waiterReserved else 0#32) ||| (if inUse then waiterInUse else 0#32)

/-! ## One thread -/

variable [DecidableEq W]

/-- A thread with the value `slot` under the key, `loc` in the thread-local variable
and `held` obtained, at `p`, and the waiters it owns. -/
structure ThreadOk (tls : Bool) (slot loc : Option W) (held : List W) (p : Pc W) (own : W → Prop)
    (flags : W → Word) : Prop where
  own_iff : ∀ w, own w ↔ (slot = some w ∨ p.reserving = some w) ∨ (w ∈ held ∨ p.inUse = some w) ∨
    p.moving = some w
  flags_eq : ∀ w, own w → flags w =
    flagBits (slot = some w ∨ p.reserving = some w) (w ∈ held ∨ p.inUse = some w)
  nodup : held.Nodup
  carried : ∀ w, p.moving = some w ∨ p.inUse = some w ∨ p.reserving = some w → w ∉ held
  tw_eq : ∀ tw, p.remembers = some tw → tw = slot
  reserving : ∀ w, p.reserving = some w → slot = p.thisSlot
  moving : ∀ w, p.moving = some w → slot = some w → p.settled = true
  local_eq : tls = true → loc = p.thisLocal slot

namespace ThreadOk

variable {tls : Bool} {slot loc : Option W} {held : List W} {p p' : Pc W} {own own' : W → Prop}
  {flags flags' : W → Word} {w : W} {tw : Option W}

theorem congr (h : ThreadOk tls slot loc held p own flags) (hown : ∀ w, own' w ↔ own w)
    (hflags : ∀ w, own w → flags' w = flags w) : ThreadOk tls slot loc held p own' flags' where
  own_iff w := (hown w).trans (h.own_iff w)
  flags_eq w hw := (hflags w ((hown w).mp hw)).trans (h.flags_eq w ((hown w).mp hw))
  nodup := h.nodup
  carried := h.carried
  tw_eq := h.tw_eq
  reserving := h.reserving
  moving := h.moving
  local_eq := h.local_eq

/-- The thread goes on with the same waiters. -/
theorem goto (h : ThreadOk tls slot loc held p own flags) (hr : p'.reserving = p.reserving)
    (hu : p'.inUse = p.inUse) (hm : p'.moving = p.moving)
    (htw : ∀ tw, p'.remembers = some tw → tw = slot) (hslot : p'.thisSlot = p.thisSlot)
    (hset : p.settled = true → p'.settled = true) (hloc : p'.thisLocal slot = p.thisLocal slot) :
    ThreadOk tls slot loc held p' own flags where
  own_iff w := by rw [hr, hu, hm]; exact h.own_iff w
  flags_eq w hw := by simp only [hr, hu]; exact h.flags_eq w hw
  nodup := h.nodup
  carried w hw := h.carried w (by rwa [hr, hu, hm] at hw)
  tw_eq := htw
  reserving w hw := by rw [hslot]; exact h.reserving w (hr ▸ hw)
  moving w hw hs := hset (h.moving w (hm ▸ hw) hs)
  local_eq ht := by rw [hloc]; exact h.local_eq ht

/-- A thread that carries nothing picks up a free waiter. -/
theorem pickUp (h : ThreadOk tls slot loc held p own flags) (p' : Pc W) (hw : ¬ own w)
    (hf : flags' w = 0#32)
    (hflags : ∀ v, own v → flags' v = flags v)
    (hr : p.reserving = none) (hu : p.inUse = none) (hm : p.moving = none)
    (hr' : p'.reserving = none) (hu' : p'.inUse = none) (hm' : p'.moving = some w)
    (htw : ∀ tw, p'.remembers = some tw → tw = slot)
    (hloc : p'.thisLocal slot = p.thisLocal slot) :
    ThreadOk tls slot loc held p' (fun v => own v ∨ v = w) flags' := by
  have hwslot : slot ≠ some w := fun hs => hw ((h.own_iff w).mpr (Or.inl (Or.inl hs)))
  have hwheld : w ∉ held := fun hh => hw ((h.own_iff w).mpr (Or.inr (Or.inl (Or.inl hh))))
  refine ⟨fun v => ?_, fun v hv => ?_, h.nodup, fun v hv => ?_, htw, fun v hv => ?_,
    fun v hv hs => ?_, fun ht => ?_⟩
  · rw [h.own_iff v, hr, hu, hm, hr', hu', hm']
    simp only [reduceCtorEq, or_false, Option.some.injEq, eq_comm (a := w)]
    tauto
  · rcases hv with hv | rfl
    · rw [hflags v hv, h.flags_eq v hv, hr, hu, hr', hu']
    · rw [hf, hr', hu']
      simp [hwslot, hwheld, flagBits]
  · rw [hr', hu', hm'] at hv
    simp only [Option.some.injEq, reduceCtorEq, or_false] at hv
    exact hv ▸ hwheld
  · rw [hr'] at hv
    cases hv
  · rw [hm'] at hv
    exact (hwslot (Option.some.inj hv ▸ hs)).elim
  · rw [hloc]
    exact h.local_eq ht

/-- The waiter in the slot is not in use, so the thread takes it. -/
theorem takeReserved (h : ThreadOk tls slot loc held (.newCheck (some w)) own flags)
    (hf : flags w &&& (waiterReserved ||| waiterInUse) = waiterReserved) :
    ThreadOk tls slot loc held (.newUse w) own flags := by
  have hslot : some w = slot := h.tw_eq _ rfl
  have hown : own w := (h.own_iff w).mpr (Or.inl (Or.inl hslot.symm))
  have hheld : w ∉ held := by
    intro hh
    rw [h.flags_eq w hown] at hf
    simp [← hslot, hh, flagBits, waiterReserved, waiterInUse] at hf
  refine ⟨fun v => ?_, fun v hv => ?_, h.nodup, fun v hv => ?_, by simp [Pc.remembers], by
    simp [Pc.reserving], fun _ _ _ => rfl, fun ht => h.local_eq ht⟩
  · rw [h.own_iff v]
    simp only [Pc.reserving, Pc.inUse, Pc.moving, reduceCtorEq, or_false, hslot]
    tauto
  · rw [h.flags_eq v hv]
    rfl
  · simp only [Pc.moving, Pc.inUse, Pc.reserving, Option.some.injEq, reduceCtorEq, or_false] at hv
    exact hv ▸ hheld

/-- The thread reserves the waiter that it carries. -/
theorem reserve (h : ThreadOk tls slot loc held (.newReserve none w) own flags) :
    ThreadOk tls slot loc held (.once (.setSpecific w) .load) own
      (Function.update flags w (flags w ||| waiterReserved)) := by
  have hslot : none = slot := h.tw_eq _ rfl
  subst hslot
  have hheld : w ∉ held := h.carried w (Or.inl rfl)
  have hown : own w := (h.own_iff w).mpr (Or.inr (Or.inr rfl))
  have hw := h.flags_eq w hown
  simp only [Pc.reserving, Pc.inUse, reduceCtorEq, or_false, hheld, flagBits] at hw
  refine ⟨fun v => ?_, fun v hv => ?_, h.nodup, fun v hv => ?_, by simp [Pc.remembers],
    fun _ _ => rfl, by simp [Pc.moving], fun ht => h.local_eq ht⟩
  · rw [h.own_iff v]
    simp only [Pc.reserving, Pc.inUse, Pc.moving, reduceCtorEq, or_false]
    tauto
  · by_cases hvw : v = w
    · subst hvw
      rw [Function.update_self, hw]
      simp [Pc.reserving, Pc.inUse, hheld, flagBits]
    · rw [Function.update_of_ne hvw, h.flags_eq v hv]
      simp [Pc.reserving, Pc.inUse, Ne.symm hvw]
  · simp only [Pc.moving, Pc.inUse, Pc.reserving, Option.some.injEq, reduceCtorEq, false_or] at hv
    exact hv ▸ hheld

/-- The thread stores the waiter under the key. -/
theorem store (h : ThreadOk tls slot loc held (.setSpecific w) own flags) :
    ThreadOk tls (some w) loc held (if tls = true then .setLocal w else .newUse w) own flags := by
  have hslot : slot = none := h.reserving w rfl
  subst hslot
  have hheld : w ∉ held := h.carried w (Or.inr (Or.inr rfl))
  have hloc := h.local_eq
  cases tls with
  | true =>
      refine ⟨fun v => ?_, fun v hv => ?_, h.nodup, fun v hv => ?_, by simp [Pc.remembers],
        fun v _ => rfl, by simp [Pc.moving], fun ht => hloc ht⟩
      · rw [h.own_iff v]
        simp [Pc.reserving, Pc.inUse, Pc.moving]
      · rw [h.flags_eq v hv]
        simp [Pc.reserving, Pc.inUse]
      · simp only [Pc.moving, Pc.inUse, Pc.reserving, Option.some.injEq, reduceCtorEq, false_or,
          if_true] at hv
        exact hv ▸ hheld
  | false =>
      refine ⟨fun v => ?_, fun v hv => ?_, h.nodup, fun v hv => ?_, by simp [Pc.remembers], by
        simp [Pc.reserving], fun _ _ _ => rfl, by simp⟩
      · rw [h.own_iff v]
        simp only [Pc.reserving, Pc.inUse, Pc.moving, Bool.false_eq_true, if_false, reduceCtorEq,
          or_false, false_or]
        tauto
      · rw [h.flags_eq v hv]
        simp [Pc.reserving, Pc.inUse]
      · simp only [Pc.moving, Pc.inUse, Pc.reserving, Option.some.injEq, reduceCtorEq, or_false,
          Bool.false_eq_true, if_false] at hv
        exact hv ▸ hheld

theorem storeLocal (h : ThreadOk tls slot loc held (.setLocal w) own flags) :
    ThreadOk tls slot (some w) held (.newUse w) own flags := by
  have hslot : slot = some w := h.reserving w rfl
  subst hslot
  have hheld : w ∉ held := h.carried w (Or.inr (Or.inr rfl))
  refine ⟨fun v => ?_, fun v hv => ?_, h.nodup, fun v hv => ?_, by simp [Pc.remembers], by
    simp [Pc.reserving], fun _ _ _ => rfl, fun _ => rfl⟩
  · rw [h.own_iff v]
    simp only [Pc.reserving, Pc.inUse, Pc.moving, reduceCtorEq, or_false]
    tauto
  · rw [h.flags_eq v hv]
    simp [Pc.reserving, Pc.inUse]
  · simp only [Pc.moving, Pc.inUse, Pc.reserving, Option.some.injEq, reduceCtorEq, or_false] at hv
    exact hv ▸ hheld

/-- `nsync_waiter_new_` returns. -/
theorem obtain (h : ThreadOk tls slot loc held (.newUse w) own flags) :
    ThreadOk tls slot loc (w :: held) (.client (some w)) own
      (Function.update flags w (flags w ||| waiterInUse)) := by
  have hheld : w ∉ held := h.carried w (Or.inl rfl)
  have hown : own w := (h.own_iff w).mpr (Or.inr (Or.inr rfl))
  refine ⟨fun v => ?_, fun v hv => ?_, List.nodup_cons.mpr ⟨hheld, h.nodup⟩, by
    simp [Pc.reserving, Pc.inUse, Pc.moving], by simp [Pc.remembers], by simp [Pc.reserving], by
    simp [Pc.moving], fun ht => h.local_eq ht⟩
  · rw [h.own_iff v]
    simp only [Pc.reserving, Pc.inUse, Pc.moving, reduceCtorEq, or_false, List.mem_cons,
      Option.some.injEq, eq_comm (a := w)]
    tauto
  · by_cases hvw : v = w
    · subst hvw
      rw [Function.update_self, h.flags_eq v hv]
      simp [Pc.reserving, Pc.inUse, hheld, flagBits]
    · rw [Function.update_of_ne hvw, h.flags_eq v hv]
      simp [Pc.reserving, Pc.inUse, hvw]

/-- `nsync_waiter_free_` is called. -/
theorem giveBack {r : Option W} (h : ThreadOk tls slot loc held (.client r) own flags)
    (hw : w ∈ held) : ThreadOk tls slot loc (held.erase w) (.freeAssert w) own flags := by
  have hmem : ∀ v, v ∈ held ↔ v ∈ held.erase w ∨ w = v := by
    intro v
    rw [h.nodup.mem_erase_iff]
    constructor
    · intro hv
      by_cases hvw : v = w
      · exact Or.inr hvw.symm
      · exact Or.inl ⟨hvw, hv⟩
    · rintro (hv | rfl)
      · exact hv.2
      · exact hw
  refine ⟨fun v => ?_, fun v hv => ?_, h.nodup.erase w, fun v hv => ?_, by simp [Pc.remembers], by
    simp [Pc.reserving], by simp [Pc.moving], fun ht => h.local_eq ht⟩
  · rw [h.own_iff v, hmem v]
    simp [Pc.reserving, Pc.inUse, Pc.moving]
  · rw [h.flags_eq v hv]
    simp [Pc.reserving, Pc.inUse, hmem v]
  · simp only [Pc.moving, Pc.inUse, Pc.reserving, Option.some.injEq, reduceCtorEq, or_false,
      false_or] at hv
    rw [← hv]
    exact h.nodup.not_mem_erase

theorem clearInUse (h : ThreadOk tls slot loc held (.freeClear w) own flags) :
    ThreadOk tls slot loc held (.freeTest w) own
      (Function.update flags w (flags w &&& ~~~waiterInUse)) := by
  have hheld : w ∉ held := h.carried w (Or.inr (Or.inl rfl))
  refine ⟨fun v => ?_, fun v hv => ?_, h.nodup, fun v hv => ?_, by simp [Pc.remembers], by
    simp [Pc.reserving], fun _ _ _ => rfl, fun ht => h.local_eq ht⟩
  · rw [h.own_iff v]
    simp only [Pc.reserving, Pc.inUse, Pc.moving, reduceCtorEq, or_false]
  · by_cases hvw : v = w
    · subst hvw
      rw [Function.update_self, h.flags_eq v hv]
      by_cases hs : slot = some v <;>
        simp [Pc.reserving, Pc.inUse, hheld, hs, flagBits, waiterReserved, waiterInUse]
    · rw [Function.update_of_ne hvw, h.flags_eq v hv]
      simp [Pc.reserving, Pc.inUse, Ne.symm hvw]
  · simp only [Pc.moving, Pc.inUse, Pc.reserving, Option.some.injEq, reduceCtorEq, or_false] at hv
    exact hv ▸ hheld

/-- A reserved waiter stays with its thread, and another one goes on the list. -/
theorem freeTest (h : ThreadOk tls slot loc held (.freeTest w) own flags) :
    ThreadOk tls slot loc held
      (if flags w &&& waiterReserved = 0#32 then .pushSpin w .load else .client none) own flags := by
  have hheld : w ∉ held := h.carried w (Or.inl rfl)
  have hown : own w := (h.own_iff w).mpr (Or.inr (Or.inr rfl))
  have hf := h.flags_eq w hown
  by_cases hs : slot = some w
  · rw [if_neg (by
      rw [hf]
      simp [Pc.reserving, Pc.inUse, hheld, hs, flagBits, waiterReserved])]
    refine ⟨fun v => ?_, fun v hv => h.flags_eq v hv, h.nodup, by
      simp [Pc.reserving, Pc.inUse, Pc.moving], by simp [Pc.remembers], by simp [Pc.reserving], by
      simp [Pc.moving], fun ht => h.local_eq ht⟩
    rw [h.own_iff v, hs]
    simp only [Pc.reserving, Pc.inUse, Pc.moving, reduceCtorEq, or_false]
    tauto
  · rw [if_pos (by
      rw [hf]
      simp [Pc.reserving, Pc.inUse, hheld, hs, flagBits, waiterReserved])]
    refine ⟨fun v => h.own_iff v, fun v hv => h.flags_eq v hv, h.nodup, fun v hv => ?_, by
      simp [Pc.remembers], by simp [Pc.reserving], fun v hv hs' => ?_, fun ht => h.local_eq ht⟩
    · simp only [Pc.moving, Pc.inUse, Pc.reserving, Option.some.injEq, reduceCtorEq, or_false] at hv
      exact hv ▸ hheld
    · exact (hs (Option.some.inj hv ▸ hs')).elim

/-- The thread exits. -/
theorem exit {r : Option W} (h : ThreadOk tls (some w) loc [] (.client r) own flags) :
    ThreadOk tls none loc [] (.destroyReset w) own flags := by
  refine ⟨fun v => ?_, fun v hv => ?_, h.nodup, by simp, by simp [Pc.remembers],
    fun _ _ => rfl, by simp [Pc.moving], fun ht => h.local_eq ht⟩
  · rw [h.own_iff v]
    simp [Pc.reserving, Pc.inUse, Pc.moving]
  · rw [h.flags_eq v hv]
    simp [Pc.reserving, Pc.inUse]

theorem reset (h : ThreadOk tls slot loc held (.destroyReset w) own flags) :
    ThreadOk tls slot none held (.destroyAssert w) own flags :=
  ⟨h.own_iff, h.flags_eq, h.nodup, h.carried, by simp [Pc.remembers], h.reserving, by
    simp [Pc.moving], fun _ => (h.reserving w rfl).symm⟩

theorem clearReserved (h : ThreadOk tls slot loc held (.destroyClear w) own flags) :
    ThreadOk tls slot loc held (.pushSpin w .load) own
      (Function.update flags w (flags w &&& ~~~waiterReserved)) := by
  have hslot : slot = none := h.reserving w rfl
  subst hslot
  have hheld : w ∉ held := h.carried w (Or.inr (Or.inr rfl))
  refine ⟨fun v => ?_, fun v hv => ?_, h.nodup, fun v hv => ?_, by simp [Pc.remembers], by
    simp [Pc.reserving], by simp, fun ht => h.local_eq ht⟩
  · rw [h.own_iff v]
    simp only [Pc.reserving, Pc.inUse, Pc.moving, reduceCtorEq, or_false]
    tauto
  · by_cases hvw : v = w
    · subst hvw
      rw [Function.update_self, h.flags_eq v hv]
      simp [Pc.reserving, Pc.inUse, hheld, flagBits, waiterReserved]
    · rw [Function.update_of_ne hvw, h.flags_eq v hv]
      simp [Pc.reserving, Pc.inUse, Ne.symm hvw]
  · simp only [Pc.moving, Pc.inUse, Pc.reserving, Option.some.injEq, reduceCtorEq, or_false] at hv
    exact hv ▸ hheld

/-- The waiter goes on the list. -/
theorem putDown (h : ThreadOk tls slot loc held (.push w) own flags) :
    ThreadOk tls slot loc held .pushRelease (fun v => own v ∧ v ≠ w) flags := by
  have hheld : w ∉ held := h.carried w (Or.inl rfl)
  have hslot : slot ≠ some w := fun hs => by cases h.moving w rfl hs
  refine ⟨fun v => ?_, fun v hv => h.flags_eq v hv.1, h.nodup, by
    simp [Pc.reserving, Pc.inUse, Pc.moving], by simp [Pc.remembers], by simp [Pc.reserving], by
    simp [Pc.moving], fun ht => h.local_eq ht⟩
  rw [h.own_iff v]
  simp only [Pc.reserving, Pc.inUse, Pc.moving, reduceCtorEq, or_false, Option.some.injEq]
  constructor
  · rintro ⟨hs | hh | rfl, hne⟩
    · exact Or.inl hs
    · exact Or.inr hh
    · exact (hne rfl).elim
  · rintro (hs | hh)
    · exact ⟨Or.inl hs, by rintro rfl; exact hslot hs⟩
    · exact ⟨Or.inr (Or.inl hh), by rintro rfl; exact hheld hh⟩

/-- The flag that says that a waiter with its user is in use. -/
theorem inUse_set (h : ThreadOk tls slot loc held p own flags) (hw : w ∈ held ∨ p.inUse = some w) :
    flags w &&& waiterInUse ≠ 0#32 := by
  rw [h.flags_eq w ((h.own_iff w).mpr (Or.inr (Or.inl hw)))]
  by_cases hr : slot = some w ∨ p.reserving = some w <;>
    simp [hr, hw, flagBits, waiterReserved, waiterInUse]

end ThreadOk

/-! ## The whole pool -/

/-- The word and the key of `do_once`. -/
structure OnceOk (s : State T W) : Prop where
  owned : Owned (decide (s.ptOnce = 1#32)) fun t => (s.pc t).creates ≠ none
  word : s.ptOnce = 0#32 ∨ s.ptOnce = 1#32 ∨ s.ptOnce = 2#32
  zero : s.ptOnce = 0#32 → s.keys = 0
  two : s.ptOnce = 2#32 → s.keys = 1
  creates : ∀ t n, (s.pc t).creates = some n → s.keys = n
  usesKey : ∀ t, (s.pc t).usesKey = true → s.ptOnce = 2#32

/-- The spinlock, with the list `l` of free waiters. -/
structure SpinOk (s : State T W) (l : List W) : Prop where
  owned : Owned (decide (s.freeWaitersMu = 1#32)) fun t => (s.pc t).spinning = true
  word : s.freeWaitersMu = 0#32 ∨ s.freeWaitersMu = 1#32
  first : ∀ t tw q, s.pc t = .newRemove tw q → l.head? = some q

/-- The list `l` of free waiters, and the owners `o` of the others. -/
structure ListOk (s : State T W) (o : W → Option T) (l : List W) : Prop where
  list : Denotes s.links s.freeWaiters l
  free : ∀ w, w ∈ l ↔ s.allocated w = true ∧ o w = none
  owned : ∀ w t, o w = some t → s.allocated w = true
  flags : ∀ w ∈ l, s.flags w = 0#32
  record : ∀ w, s.allocated w = true → s.wtr w = { initWaiter w with flags := s.flags w }
  alone : ∀ w t, o w = some t → w ∉ s.held t → s.links.Alone w

structure Inv (tls : Bool) (s : State T W) (o : W → Option T) (l : List W) : Prop where
  threads : ∀ t, ThreadOk tls (s.slot t) (s.waiterForThread t) (s.held t) (s.pc t)
    (fun w => o w = some t) s.flags
  lists : ListOk s o l
  spin : SpinOk s l
  once : OnceOk s
  sound : s.crashed = false

section

variable [DecidableEq T] {s s' : State T W} {o : W → Option T} {l l' : List W} {t : T} {p' : Pc W}

omit [DecidableEq W]

omit [DecidableEq T] in

theorem ListOk.congr (h : ListOk s o l)
    (hs : s'.links = s.links) (hf : s'.freeWaiters = s.freeWaiters) (hw : s'.wtr = s.wtr)
    (ha : s'.allocated = s.allocated) (hh : s'.held = s.held) : ListOk s' o l := by
  have hfl : s'.flags = s.flags := by
    funext w
    rw [State.flags, State.flags, hw]
  exact ⟨hs ▸ hf ▸ h.list, fun w => ha ▸ h.free w, fun w t hw => ha ▸ h.owned w t hw,
    fun w hw => hfl ▸ h.flags w hw, fun w hw' => by rw [hw, hfl]; exact h.record w (ha ▸ hw'),
    fun w t hw hn => hs ▸ h.alone w t hw (hh ▸ hn)⟩

/-- The step of a thread that is not about the key. -/
theorem OnceOk.goto (h : OnceOk s) (hpc : s'.pc = Function.update s.pc t p')
    (ho : s'.ptOnce = s.ptOnce) (hk : s'.keys = s.keys) (hc : p'.creates = (s.pc t).creates)
    (hu : p'.usesKey = true → s.ptOnce = 2#32) : OnceOk s' := by
  have hcreates : ∀ u, (s'.pc u).creates = (s.pc u).creates := by
    intro u
    rw [hpc]
    by_cases hut : u = t
    · rw [hut, Function.update_self, hc]
    · rw [Function.update_of_ne hut]
  refine ⟨h.owned.congr (by rw [ho]) fun u => by rw [hcreates], by rw [ho]; exact h.word,
    fun h0 => hk ▸ h.zero (ho ▸ h0), fun h2 => hk ▸ h.two (ho ▸ h2),
    fun u n hn => hk ▸ h.creates u n (hcreates u ▸ hn), fun u hu' => ?_⟩
  rw [ho]
  rw [hpc] at hu'
  by_cases hut : u = t
  · rw [hut, Function.update_self] at hu'
    exact hu hu'
  · rw [Function.update_of_ne hut] at hu'
    exact h.usesKey u hu'

/-- What the spinlock and its owner need after a step of `t`. -/
theorem SpinOk.of_owned (h : SpinOk s l) (hpc : s'.pc = Function.update s.pc t p')
    (howned : Owned (decide (s'.freeWaitersMu = 1#32)) fun t => (s'.pc t).spinning = true)
    (hword : s'.freeWaitersMu = 0#32 ∨ s'.freeWaitersMu = 1#32)
    (hl : ∀ u, u ≠ t → (s.pc u).spinning = true → l' = l)
    (hf : ∀ tw q, p' = .newRemove tw q → l'.head? = some q) : SpinOk s' l' := by
  refine ⟨howned, hword, fun u tw q hu => ?_⟩
  rw [hpc] at hu
  by_cases hut : u = t
  · rw [hut, Function.update_self] at hu
    exact hf tw q hu
  · rw [Function.update_of_ne hut] at hu
    rw [hl u hut (by rw [hu]; rfl)]
    exact h.first u tw q hu

omit [DecidableEq T] in
theorem spinning_update [DecidableEq T] (hpc : s'.pc = Function.update s.pc t p')
    {u : T} (hu : u ≠ t) : (s'.pc u).spinning = true ↔ (s.pc u).spinning = true := by
  rw [hpc, Function.update_of_ne hu]

/-- The step of a thread that leaves the spinlock and the list alone. -/
theorem SpinOk.goto (h : SpinOk s l) (hpc : s'.pc = Function.update s.pc t p')
    (hm : s'.freeWaitersMu = s.freeWaitersMu) (hsp : p'.spinning = (s.pc t).spinning)
    (hf : ∀ tw q, p' = .newRemove tw q → l.head? = some q) : SpinOk s' l := by
  refine h.of_owned hpc (h.owned.congr (by rw [hm]) fun u => ?_) (by rw [hm]; exact h.word)
    (fun _ _ _ => rfl) hf
  by_cases hut : u = t
  · rw [hut, hpc, Function.update_self, hsp]
  · exact spinning_update hpc hut

/-- The owner of the spinlock goes on and may change the list. -/
theorem SpinOk.change (h : SpinOk s l) (hpc : s'.pc = Function.update s.pc t p')
    (hm : s'.freeWaitersMu = s.freeWaitersMu) (ht : (s.pc t).spinning = true)
    (ht' : p'.spinning = true) (hf : ∀ tw q, p' ≠ .newRemove tw q) : SpinOk s' l' := by
  refine h.of_owned hpc (h.owned.congr (by rw [hm]) fun u => ?_) (by rw [hm]; exact h.word)
    (fun u hut hu => (hut (h.owned.unique u t hu ht)).elim) fun tw q hq => (hf tw q hq).elim
  by_cases hut : u = t
  · rw [hut, hpc, Function.update_self, ht, ht']
  · exact spinning_update hpc hut

theorem SpinOk.acquire (h : SpinOk s l) (hpc : s'.pc = Function.update s.pc t p')
    (hm : s.freeWaitersMu = 0#32) (hm' : s'.freeWaitersMu = 1#32) (ht' : p'.spinning = true)
    (hf : ∀ tw q, p' ≠ .newRemove tw q) : SpinOk s' l :=
  h.of_owned hpc (h.owned.take (by simp [hm]) (by simp [hm'])
    (by rw [hpc, Function.update_self, ht']) fun _ hu => spinning_update hpc hu) (Or.inr hm')
    (fun _ _ _ => rfl) fun tw q hq => (hf tw q hq).elim

theorem SpinOk.release (h : SpinOk s l) (hpc : s'.pc = Function.update s.pc t p')
    (hm' : s'.freeWaitersMu = 0#32) (ht : (s.pc t).spinning = true) (ht' : p'.spinning = false) :
    SpinOk s' l := by
  refine h.of_owned hpc (h.owned.drop ht (by simp [hm'])
    (by rw [hpc, Function.update_self, ht']; simp) fun _ hu => spinning_update hpc hu) (Or.inl hm')
    (fun _ _ _ => rfl) ?_
  rintro tw q rfl
  cases ht'

end

section

variable {tls : Bool} [DecidableEq T] {s s' : State T W} {o o' : W → Option T} {l l' : List W}
  {t : T} {w : W} {p' : Pc W}

omit [DecidableEq T] in
theorem inv_initial (tls : Bool) (wtr : W → Waiter W) :
    Inv tls (initial wtr : State T W) (fun _ => none) [] where
  threads t := by
    refine ⟨?_, ?_, List.nodup_nil, ?_, ?_, ?_, ?_, fun _ => rfl⟩ <;>
      simp [initial, Pc.reserving, Pc.inUse, Pc.moving, Pc.remembers]
  lists := ⟨.empty _, by simp [initial], by simp, by simp, by simp [initial], by simp⟩
  spin := ⟨⟨by simp [initial, Pc.spinning], by simp [initial, Pc.spinning]⟩, Or.inl rfl, by
    simp [initial]⟩
  once := ⟨⟨by simp [initial, Pc.creates], by simp [initial, Pc.creates]⟩, Or.inl rfl,
    fun _ => rfl, by simp [initial], by simp [initial, Pc.creates], by simp [initial, Pc.usesKey]⟩
  sound := rfl

omit [DecidableEq W] [DecidableEq T] in
theorem ListOk.notMem (h : ListOk s o l) (hw : o w = some t) : w ∉ l := by
  intro hm
  have := ((h.free w).mp hm).2
  rw [hw] at this
  cases this

/-- Thread `t` takes a step to `p'`; the other threads keep their waiters. -/
theorem Inv.next (hi : Inv tls s o l) (hpc : s'.pc = Function.update s.pc t p')
    (hslot : ∀ u, u ≠ t → s'.slot u = s.slot u)
    (hloc : ∀ u, u ≠ t → s'.waiterForThread u = s.waiterForThread u)
    (hheld : ∀ u, u ≠ t → s'.held u = s.held u)
    (hown : ∀ u, u ≠ t → ∀ w, o' w = some u ↔ o w = some u)
    (hflags : ∀ u, u ≠ t → ∀ w, o w = some u → s'.flags w = s.flags w)
    (ht : ThreadOk tls (s'.slot t) (s'.waiterForThread t) (s'.held t) p' (fun w => o' w = some t)
      s'.flags) (hlists : ListOk s' o' l') (hspin : SpinOk s' l') (honce : OnceOk s')
    (hs : s'.crashed = s.crashed) : Inv tls s' o' l' := by
  refine ⟨fun u => ?_, hlists, hspin, honce, hs.trans hi.sound⟩
  rw [hpc]
  by_cases hut : u = t
  · subst hut
    rw [Function.update_self]
    exact ht
  · rw [Function.update_of_ne hut, hslot u hut, hloc u hut, hheld u hut]
    exact (hi.threads u).congr (hown u hut) (hflags u hut)

omit [DecidableEq T] in
theorem flags_setFlags (f : Word) : (s.setFlags w f).flags = Function.update s.flags w f := by
  funext v
  by_cases hv : v = w
  · subst hv
    simp [State.flags, State.setFlags]
  · simp [State.flags, State.setFlags, hv]

/-- A thread goes on, perhaps with a change of the spinlock or the key. -/
theorem Inv.goto (hi : Inv tls s o l) {k : ℕ} {m x : Word}
    (ht : ThreadOk tls (s.slot t) (s.waiterForThread t) (s.held t) p' (fun w => o w = some t)
      s.flags) (hspin : SpinOk { s.setPc t p' with ptOnce := x, keys := k, freeWaitersMu := m } l)
    (honce : OnceOk { s.setPc t p' with ptOnce := x, keys := k, freeWaitersMu := m }) :
    Inv tls { s.setPc t p' with ptOnce := x, keys := k, freeWaitersMu := m } o l :=
  hi.next rfl (fun _ _ => rfl) (fun _ _ => rfl) (fun _ _ => rfl) (fun _ _ _ => Iff.rfl)
    (fun _ _ _ _ => rfl) ht (hi.lists.congr rfl rfl rfl rfl rfl) hspin honce rfl

/-- A thread writes the flags of a waiter that it owns, and may add it to those it
holds. -/
theorem Inv.write (hi : Inv tls s o l) (held' : List W) {f : Word} (hw : o w = some t)
    (hheld : ∀ v, v ∈ s.held t → v ∈ held')
    (ht : ThreadOk tls (s.slot t) (s.waiterForThread t) held' p' (fun w => o w = some t)
      (Function.update s.flags w f)) (hsp : p'.spinning = (s.pc t).spinning)
    (hf : ∀ tw q, p' ≠ .newRemove tw q)
    (hc : p'.creates = (s.pc t).creates) (hu : p'.usesKey = false) :
    Inv tls { (s.setFlags w f).setPc t p' with held := Function.update s.held t held' } o l := by
  have hwl : w ∉ l := hi.lists.notMem hw
  have hflags : ∀ v, v ≠ w → (s.setFlags w f).flags v = s.flags v := by
    intro v hv
    rw [flags_setFlags, Function.update_of_ne hv]
  refine hi.next rfl (fun _ _ => rfl) (fun _ _ => rfl) (fun _ hu => Function.update_of_ne hu _ _)
    (fun _ _ _ => Iff.rfl) (fun u hut v hv => hflags v ?_) ?_ ?_
    (hi.spin.goto rfl rfl hsp fun tw q hq => (hf tw q hq).elim)
    (hi.once.goto rfl rfl rfl hc fun hk => by rw [hu] at hk; cases hk) rfl
  · rintro rfl
    exact hut (Option.some.inj (hv.symm.trans hw))
  · change ThreadOk tls (s.slot t) (s.waiterForThread t) (Function.update s.held t held' t) p' _
      (s.setFlags w f).flags
    rw [flags_setFlags, Function.update_self]
    exact ht
  · refine ⟨hi.lists.list, hi.lists.free, hi.lists.owned, fun v hv => ?_, fun v hv => ?_,
      fun v u hv hn => hi.lists.alone v u hv fun hh => hn ?_⟩
    · exact (hflags v (by rintro rfl; exact hwl hv)).trans (hi.lists.flags v hv)
    · change (s.setFlags w f).wtr v = { initWaiter v with flags := (s.setFlags w f).flags v }
      have hrec := hi.lists.record v hv
      by_cases hvw : v = w
      · subst hvw
        rw [flags_setFlags, Function.update_self, State.setFlags]
        simp only [Function.update_self]
        rw [hrec]
      · rw [hflags v hvw, State.setFlags]
        simp only [Function.update_of_ne hvw]
        exact hrec
    · change v ∈ Function.update s.held t held' u
      by_cases hut : u = t
      · subst hut
        rw [Function.update_self]
        exact hheld v hh
      · rw [Function.update_of_ne hut]
        exact hh

omit [DecidableEq T] in
/-- A waiter has changed hands. -/
theorem owner_update {x : Option T} {u : T} (hx : x ≠ some u) (hw : o w ≠ some u) (v : W) :
    Function.update o w x v = some u ↔ o v = some u := by
  by_cases hv : v = w
  · subst hv
    rw [Function.update_self]
    exact ⟨fun h => (hx h).elim, fun h => (hw h).elim⟩
  · rw [Function.update_of_ne hv]

/-- A thread takes the first waiter from the list. -/
theorem Inv.remove {tw : Option W} {q : W} (hi : Inv tls s o l)
    (hp : s.pc t = .newRemove tw q) :
    ∃ o' l', Inv tls { s.setPc t (.newUnpack tw q) with
      links := (s.links.removeFrom s.freeWaiters q).1
      freeWaiters := (s.links.removeFrom s.freeWaiters q).2 } o' l' := by
  have hl := hi.lists
  have ht := hi.threads t
  rw [hp] at ht
  have hq : q ∈ l := List.mem_of_mem_head? (hi.spin.first t tw q hp)
  obtain ⟨hqa, hqo⟩ := (hl.free q).mp hq
  refine ⟨Function.update o q (some t), l.erase q, hi.next rfl (fun _ _ => rfl) (fun _ _ => rfl)
    (fun _ _ => rfl) (fun u hut => owner_update (by simpa using Ne.symm hut) (by simp [hqo]))
    (fun _ _ _ _ => rfl) ?_ ?_
    (hi.spin.change rfl rfl (by rw [hp]; rfl) rfl fun _ _ => by simp)
    (hi.once.goto rfl rfl rfl (by rw [hp]; rfl) fun hk => by cases hk) rfl⟩
  · refine (ht.pickUp (.newUnpack tw q) (by simp [hqo]) (hl.flags q hq) (fun _ _ => rfl) rfl rfl rfl rfl rfl
      rfl (fun _ htw => ht.tw_eq _ htw) rfl).congr (fun v => ?_) fun _ _ => rfl
    by_cases hv : v = q
    · simp [hv]
    · simp [hv]
  · refine ⟨hl.list.removeFrom hq, fun v => ?_, fun v u hv => ?_, fun v hv => hl.flags v
      (List.mem_of_mem_erase hv), hl.record, fun v u hv hn => ?_⟩
    · rw [hl.list.nodup.mem_erase_iff, hl.free v]
      by_cases hv : v = q
      · simp [hv]
      · simp [hv, State.setPc]
    · by_cases hvq : v = q
      · exact hvq ▸ hqa
      · rw [Function.update_of_ne hvq] at hv
        exact hl.owned v u hv
    · by_cases hvq : v = q
      · rw [hvq]
        exact Denotes.alone_unlink
      · rw [Function.update_of_ne hvq] at hv
        have hout := hl.list.unlink_outside hq (hl.notMem hv)
        have halone := hl.alone v u hv hn
        exact ⟨hout.1.trans halone.1, hout.2.trans halone.2⟩

/-- A thread allocates a waiter. -/
theorem Inv.malloc {tw : Option W} (hi : Inv tls s o l) (hp : s.pc t = .newMalloc tw)
    (hw : s.allocated w = false) :
    ∃ o' l', Inv tls { s.setPc t (.newReserve tw w) with
      links := ⟨Function.update s.links.next w w, Function.update s.links.prev w w⟩
      wtr := Function.update s.wtr w (initWaiter w)
      allocated := Function.update s.allocated w true } o' l' := by
  have hl := hi.lists
  have ht := hi.threads t
  rw [hp] at ht
  have hwo : ∀ u, o w ≠ some u := by
    intro u hu
    rw [hl.owned w u hu] at hw
    cases hw
  have hne : ∀ v, s.allocated v = true → v ≠ w := by
    rintro v hv rfl
    rw [hv] at hw
    cases hw
  have hwl : ∀ v ∈ l, v ≠ w := fun v hv => hne v ((hl.free v).mp hv).1
  have hflags : ∀ v, v ≠ w →
      (Function.update s.wtr w (initWaiter w) v).flags = s.flags v := by
    intro v hv
    rw [Function.update_of_ne hv, State.flags]
  refine ⟨Function.update o w (some t), l, hi.next rfl (fun _ _ => rfl) (fun _ _ => rfl)
    (fun _ _ => rfl) (fun u hut => owner_update (by simpa using Ne.symm hut) (hwo u))
    (fun u _ v hv => hflags v (hne v (hl.owned v u hv))) ?_ ?_
    (hi.spin.goto rfl rfl (by rw [hp]; rfl) fun _ _ hq => by cases hq)
    (hi.once.goto rfl rfl rfl (by rw [hp]; rfl) fun hk => by cases hk) rfl⟩
  · refine (ht.pickUp (.newReserve tw w) (hwo t) ?_
      (fun v hv => hflags v (hne v (hl.owned v t hv))) rfl rfl rfl rfl rfl rfl
      (fun _ htw => ht.tw_eq _ htw) rfl).congr (fun v => ?_) fun _ _ => rfl
    · rw [Function.update_self]
      rfl
    · by_cases hv : v = w
      · simp [hv]
      · simp [hv]
  · refine ⟨hl.list.congr (fun v hv => Function.update_of_ne (hwl v hv) _ _)
        (fun v hv => Function.update_of_ne (hwl v hv) _ _), fun v => ?_, fun v u hv => ?_,
      fun v hv => (hflags v (hwl v hv)).trans (hl.flags v hv), fun v hv => ?_, fun v u hv hn => ?_⟩
    · change v ∈ l ↔ Function.update s.allocated w true v = true ∧ _
      rw [hl.free v]
      by_cases hv : v = w
      · simp [hv, hw]
      · simp [hv]
    · change Function.update s.allocated w true v = true
      by_cases hvw : v = w
      · rw [hvw, Function.update_self]
      · rw [Function.update_of_ne hvw] at hv ⊢
        exact hl.owned v u hv
    · change Function.update s.wtr w (initWaiter w) v =
        { initWaiter v with flags := (Function.update s.wtr w (initWaiter w) v).flags }
      change Function.update s.allocated w true v = true at hv
      by_cases hvw : v = w
      · rw [hvw, Function.update_self]
      · rw [hflags v hvw, Function.update_of_ne hvw]
        rw [Function.update_of_ne hvw] at hv
        exact hl.record v hv
    · by_cases hvw : v = w
      · rw [hvw]
        exact ⟨Function.update_self _ _ _, Function.update_self _ _ _⟩
      · rw [Function.update_of_ne hvw] at hv
        have halone := hl.alone v u hv hn
        exact ⟨(Function.update_of_ne hvw _ _).trans halone.1,
          (Function.update_of_ne hvw _ _).trans halone.2⟩

/-- A thread puts a waiter on the list. -/
theorem Inv.push (hi : Inv tls s o l) (hp : s.pc t = .push w) :
    ∃ o' l', Inv tls { s.setPc t .pushRelease with
      links := (s.links.makeFirst s.freeWaiters w).1
      freeWaiters := (s.links.makeFirst s.freeWaiters w).2 } o' l' := by
  have hl := hi.lists
  have ht := hi.threads t
  rw [hp] at ht
  have hwo : o w = some t := (ht.own_iff w).mpr (Or.inr (Or.inr rfl))
  have hheld : w ∉ s.held t := ht.carried w (Or.inl rfl)
  have halone : s.links.Alone w := hl.alone w t hwo hheld
  have hwl : w ∉ l := hl.notMem hwo
  have hslot : s.slot t ≠ some w := fun hs => by cases ht.moving w rfl hs
  have hflags : s.flags w = 0#32 := by
    rw [ht.flags_eq w hwo]
    simp [Pc.reserving, Pc.inUse, hslot, hheld, flagBits]
  refine ⟨Function.update o w none, w :: l, hi.next rfl (fun _ _ => rfl) (fun _ _ => rfl)
    (fun _ _ => rfl) (fun u hut => owner_update (by simp) (by rw [hwo]; simpa using Ne.symm hut))
    (fun _ _ _ _ => rfl) ?_ ?_
    (hi.spin.change rfl rfl (by rw [hp]; rfl) rfl fun _ _ => by simp)
    (hi.once.goto rfl rfl rfl (by rw [hp]; rfl) fun hk => by cases hk) rfl⟩
  · refine ht.putDown.congr (fun v => ?_) fun _ _ => rfl
    by_cases hv : v = w
    · simp [hv]
    · simp [hv]
  · refine ⟨hl.list.makeFirst halone hwl, fun v => ?_, fun v u hv => ?_, fun v hv => ?_, hl.record,
      fun v u hv hn => ?_⟩
    · rw [List.mem_cons, hl.free v]
      by_cases hv : v = w
      · rw [hv]
        simp [hl.owned w t hwo, State.setPc]
      · simp [hv, State.setPc]
    · by_cases hvw : v = w
      · rw [hvw, Function.update_self] at hv
        cases hv
      · rw [Function.update_of_ne hvw] at hv
        exact hl.owned v u hv
    · rcases List.mem_cons.mp hv with rfl | hv
      · exact hflags
      · exact hl.flags v hv
    · by_cases hvw : v = w
      · rw [hvw, Function.update_self] at hv
        cases hv
      · rw [Function.update_of_ne hvw] at hv
        have hout := hl.list.makeFirst_outside halone (hl.notMem hv) hvw
        have hv' := hl.alone v u hv hn
        exact ⟨hout.1.trans hv'.1, hout.2.trans hv'.2⟩

end

end Nsync.Pool
