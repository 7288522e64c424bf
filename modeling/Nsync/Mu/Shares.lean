import Nsync.Lib.Ownership
import Nsync.Mu.Protocol

/-!
# Exclusion

The lock fields of the mutex word account for the shares that the threads
hold, and the spinlock bit for the one thread that holds the spinlock.  Three
plain stores overwrite the word; they are harmless because the word cannot have
changed since it was remembered.
-/

namespace Nsync.Mu

open Nsync.Lib

variable {T σ : Type} [Fintype T]

/-- The lock fields of `v` account for the shares `lk` that the threads hold. -/
structure Shares (v : View) (lk : T → Option Mode) : Prop where
  write : Owned v.wlock fun u => lk u = some .writer
  read : Counts v.readers fun u => lk u = some .reader
  excl : v.wlock = true → v.readers = 0

namespace Shares

variable {v v' : View} {lk lk' : T → Option Mode} {t u : T} {m : Mode}

theorem congr (h : Shares v lk) (hw : v'.wlock = v.wlock) (hr : v'.readers = v.readers)
    (hl : ∀ u, lk' u = lk u) : Shares v' lk' where
  write := h.write.congr hw fun u => by rw [hl u]
  read := h.read.congr hr fun u => by rw [hl u]
  excl := by rw [hw, hr]; exact h.excl

theorem hasShare (h : Shares v lk) (ht : lk t = some m) : v.HasShare m := by
  cases m with
  | reader => exact h.read.pos_of (t := t) ht
  | writer => exact h.write.set_of (t := t) ht

theorem reader_wlock (h : Shares v lk) (ht : lk t = some .reader) : v.wlock = false := by
  have hpos := h.read.pos_of (t := t) ht
  by_contra hw
  rw [Bool.not_eq_false] at hw
  have := h.excl hw
  omega

/-- A write holder is the only holder. -/
theorem eq_of_writer (h : Shares v lk) (ht : lk t = some .writer) (hu : lk u = some m) :
    u = t := by
  cases m with
  | writer => exact h.write.unique u t hu ht
  | reader =>
      have hw := h.write.set_of (t := t) ht
      rw [h.reader_wlock hu] at hw
      cases hw

/-- A thread without a share finds room for one as long as the readers fit in
their field. -/
theorem hasRoom [DecidableEq T] (h : Shares v lk)
    (hfits : (Finset.univ.filter fun u => u ≠ t ∧ lk u = some .reader).card + 1 < 2 ^ 24)
    (ht : lk t = none) (hw : v.wlock = false) : v.HasRoom m := by
  cases m with
  | writer => exact hw
  | reader =>
      have heq : (Finset.univ.filter fun u => u ≠ t ∧ lk u = some .reader) =
          Finset.univ.filter fun u => lk u = some .reader := by
        ext u
        simp only [Finset.mem_filter, Finset.mem_univ, true_and, and_iff_right_iff_imp]
        rintro hu rfl
        rw [ht] at hu
        cases hu
      have hread : v.readers = _ := h.read
      change v.readers + 1 < 2 ^ 24
      rw [hread, ← heq]
      exact hfits

variable [DecidableEq T]

theorem add (h : Shares v lk) (ht : lk t = none) (hv : v.wlock = false)
    (hn : m = .writer → v.readers = 0) (hw : v'.wlock = (v.addShare m).wlock)
    (hr : v'.readers = (v.addShare m).readers) (ht' : lk' t = some m)
    (hne : ∀ u, u ≠ t → lk' u = lk u) : Shares v' lk' := by
  cases m with
  | writer =>
      refine ⟨h.write.take hv hw ht' fun u hu => by rw [hne u hu], ?_, fun _ => hr.trans (hn rfl)⟩
      refine h.read.congr hr fun u => ?_
      by_cases hu : u = t
      · subst hu
        simp [ht, ht']
      · rw [hne u hu]
  | reader =>
      refine ⟨h.write.congr hw fun u => ?_, ?_, ?_⟩
      · by_cases hu : u = t
        · subst hu
          simp [ht, ht']
        · rw [hne u hu]
      · exact h.read.incr (t := t) (by simp [ht]) ht' (fun u hu => by rw [hne u hu]) hr
      · intro hset
        change v'.wlock = v.wlock at hw
        rw [hw, hv] at hset
        cases hset

theorem drop (h : Shares v lk) (ht : lk t = some m) (hw : v'.wlock = (v.dropShare m).wlock)
    (hr : v'.readers = (v.dropShare m).readers) (ht' : lk' t = none)
    (hne : ∀ u, u ≠ t → lk' u = lk u) : Shares v' lk' := by
  cases m with
  | writer =>
      refine ⟨h.write.drop ht hw (by simp [ht']) fun u hu => by rw [hne u hu], ?_, ?_⟩
      · refine h.read.congr hr fun u => ?_
        by_cases hu : u = t
        · subst hu
          simp [ht, ht']
        · rw [hne u hu]
      · intro hset
        rw [show v'.wlock = false from hw] at hset
        cases hset
  | reader =>
      refine ⟨h.write.congr hw fun u => ?_, ?_, ?_⟩
      · by_cases hu : u = t
        · subst hu
          simp [ht, ht']
        · rw [hne u hu]
      · exact h.read.decr ht (by simp [ht']) (fun u hu => by rw [hne u hu]) hr
      · intro hset
        change v'.wlock = v.wlock at hw
        rw [hw, h.reader_wlock ht] at hset
        cases hset

/-- The last holder converts its share into a write lock. -/
theorem convert (h : Shares v lk) (ht : lk t = some m) (hn : v.readers ≤ 1)
    (hw : v'.wlock = true) (hr : v'.readers = 0) (ht' : lk' t = some .writer)
    (hne : ∀ u, u ≠ t → lk' u = lk u) : Shares v' lk' := by
  have hother : ∀ u, u ≠ t → ∀ m', lk u ≠ some m' := by
    intro u hu m' hm'
    cases m with
    | writer => exact hu (h.eq_of_writer ht hm')
    | reader =>
        cases m' with
        | writer => exact hu (h.eq_of_writer hm' ht).symm
        | reader => exact hu (h.read.eq_of_one hn hm' ht)
  have hreader : ∀ u, lk' u ≠ some .reader := by
    intro u hu
    by_cases hut : u = t
    · subst hut
      simp [ht'] at hu
    · exact hother u hut .reader ((hne u hut).symm.trans hu)
  refine ⟨⟨⟨fun _ => ⟨t, ht'⟩, fun _ => hw⟩, ?_⟩, ?_, fun _ => hr⟩
  · intro u u' hu hu'
    have key : ∀ x, lk' x = some .writer → x = t := by
      intro x hx
      by_contra hxt
      exact hother x hxt .writer ((hne x hxt).symm.trans hx)
    rw [key u hu, key u' hu']
  · rw [hr]
    simp [Counts, hreader]

end Shares

end Nsync.Mu
