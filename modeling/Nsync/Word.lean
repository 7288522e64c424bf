import Mathlib

/-!
# The word of an `nsync_mu`

All the ownership and queue summary information of a mutex sits in one 32-bit
word: eight flag bits and, above them, the count of read holders.  This module
transcribes the masks of `internal/common.h`, splits a word into its fields,
and computes those fields for every arithmetic or bitwise expression that the
code writes back to the word.
-/

namespace Nsync

abbrev Word := BitVec 32

/-! ## Masks -/

def muWlock : Word := 1#32 <<< 0
def muSpinlock : Word := 1#32 <<< 1
def muWaiting : Word := 1#32 <<< 2
def muDesigWaker : Word := 1#32 <<< 3
def muCondition : Word := 1#32 <<< 4
def muWriterWaiting : Word := 1#32 <<< 5
def muLongWait : Word := 1#32 <<< 6
def muAllFalse : Word := 1#32 <<< 7
def muRlock : Word := 1#32 <<< 8

def muRlockField : Word := ~~~(muRlock - 1#32)
def muAnyLock : Word := muWlock ||| muRlockField

def muWzeroToAcquire : Word := muAnyLock ||| muLongWait
def muWaddToAcquire : Word := muWlock
def muWheldIfNonZero : Word := muWlock
def muWsetWhenWaiting : Word := muWaiting ||| muWriterWaiting
def muWclearOnAcquire : Word := muWriterWaiting
def muWclearOnUncontendedRelease : Word := muAllFalse

def muRzeroToAcquire : Word := muWlock ||| muWriterWaiting ||| muLongWait
def muRaddToAcquire : Word := muRlock
def muRheldIfNonZero : Word := muRlockField
def muRsetWhenWaiting : Word := muWaiting
def muRclearOnAcquire : Word := 0#32
def muRclearOnUncontendedRelease : Word := 0#32

/-- The two modes in which a mutex can be held or requested. -/
inductive Mode where
  | reader
  | writer
  deriving DecidableEq, Repr

/-- The values needed to manipulate a mutex word in one mode. -/
structure LockType where
  zeroToAcquire : Word
  addToAcquire : Word
  heldIfNonZero : Word
  setWhenWaiting : Word
  clearOnAcquire : Word
  clearOnUncontendedRelease : Word

def writerType : LockType where
  zeroToAcquire := muWzeroToAcquire
  addToAcquire := muWaddToAcquire
  heldIfNonZero := muWheldIfNonZero
  setWhenWaiting := muWsetWhenWaiting
  clearOnAcquire := muWclearOnAcquire
  clearOnUncontendedRelease := muWclearOnUncontendedRelease

def readerType : LockType where
  zeroToAcquire := muRzeroToAcquire
  addToAcquire := muRaddToAcquire
  heldIfNonZero := muRheldIfNonZero
  setWhenWaiting := muRsetWhenWaiting
  clearOnAcquire := muRclearOnAcquire
  clearOnUncontendedRelease := muRclearOnUncontendedRelease

/-- The lock type that `l_type` points to. -/
def Mode.lockType : Mode → LockType
  | .reader => readerType
  | .writer => writerType

/-- A mask that the code holds in a variable which is either `0` or `m`. -/
def maskIf (b : Bool) (m : Word) : Word := if b then m else 0#32

/-! ## Fields of a word -/

/-- The fields of a mutex word: one flag for each of the eight low bits, and
the count held in the remaining ones. -/
@[ext] structure View where
  wlock : Bool
  spin : Bool
  waiting : Bool
  desig : Bool
  cond : Bool
  writerWaiting : Bool
  longWait : Bool
  allFalse : Bool
  readers : Nat
  deriving DecidableEq, Repr

def view (w : Word) : View where
  wlock := w.getLsbD 0
  spin := w.getLsbD 1
  waiting := w.getLsbD 2
  desig := w.getLsbD 3
  cond := w.getLsbD 4
  writerWaiting := w.getLsbD 5
  longWait := w.getLsbD 6
  allFalse := w.getLsbD 7
  readers := (w >>> 8).toNat

theorem readers_lt (w : Word) : (view w).readers < 2 ^ 24 := by
  simp only [view, BitVec.toNat_ushiftRight, Nat.shiftRight_eq_div_pow]
  have := w.isLt
  omega

/-- The fields determine the word. -/
theorem view_injective {w w' : Word} (h : view w = view w') : w = w' := by
  have hr : w >>> 8 = w' >>> 8 := BitVec.eq_of_toNat_eq (congrArg View.readers h)
  simp only [view, View.mk.injEq] at h
  obtain ⟨h0, h1, h2, h3, h4, h5, h6, h7, -⟩ := h
  apply BitVec.eq_of_getLsbD_eq
  intro i hi
  by_cases h8 : 8 ≤ i
  · have := congrArg (fun x => x.getLsbD (i - 8)) hr
    simpa [Nat.add_sub_cancel' h8] using this
  · have : i = 0 ∨ i = 1 ∨ i = 2 ∨ i = 3 ∨ i = 4 ∨ i = 5 ∨ i = 6 ∨ i = 7 := by omega
    rcases this with rfl | rfl | rfl | rfl | rfl | rfl | rfl | rfl <;> assumption

theorem readers_or (w m : Word) (h : m >>> 8 = 0#32) :
    (view (w ||| m)).readers = (view w).readers := by
  simp [view, BitVec.ushiftRight_or_distrib, h]

theorem readers_andNot (w m : Word) (h : m >>> 8 = 0#32) :
    (view (w &&& ~~~m)).readers = (view w).readers := by
  have hshift : (w &&& ~~~m) >>> 8 = w >>> 8 := by
    apply BitVec.eq_of_getLsbD_eq
    intro i hi
    have hm : m.getLsbD (8 + i) = false := by
      simpa using congrArg (fun x => x.getLsbD i) h
    simp only [BitVec.getLsbD_ushiftRight, BitVec.getLsbD_and, BitVec.getLsbD_not, hm,
      Bool.not_false, Bool.and_true, Bool.and_eq_left_iff_imp, decide_eq_true_eq]
    exact BitVec.lt_of_getLsbD
  simp [view, hshift]

/-! ## Adding and subtracting lock shares -/

theorem getLsbD_muWlock {i : Nat} : muWlock.getLsbD i = decide (i = 0) := by
  by_cases h : i = 0 <;> simp [muWlock, BitVec.getLsbD_one, h]

theorem add_muWlock {w : Word} (h : (view w).wlock = false) : w + muWlock = w ||| muWlock := by
  apply BitVec.add_eq_or_of_and_eq_zero
  apply BitVec.eq_of_getLsbD_eq
  intro i hi
  by_cases h0 : i = 0
  · subst h0
    rw [BitVec.getLsbD_and, show w.getLsbD 0 = false from h, Bool.false_and,
      BitVec.getLsbD_zero]
  · simp only [BitVec.getLsbD_and, getLsbD_muWlock, h0, decide_false, Bool.and_false,
      BitVec.getLsbD_zero]

theorem sub_muWlock {w : Word} (h : (view w).wlock = true) :
    w - muWlock = w &&& ~~~muWlock := by
  have hclear : (view (w &&& ~~~muWlock)).wlock = false := by simp [view, muWlock]
  have hback : (w &&& ~~~muWlock) + muWlock = w := by
    rw [add_muWlock hclear]
    apply BitVec.eq_of_getLsbD_eq
    intro i hi
    simp only [BitVec.getLsbD_or, BitVec.getLsbD_and, BitVec.getLsbD_not, getLsbD_muWlock]
    by_cases h0 : i = 0
    · subst h0
      simp [show w.getLsbD 0 = true from h]
    · simp [hi, h0]
  exact sub_eq_of_eq_add hback.symm

/-- Adding a multiple of `MU_RLOCK` leaves the flag bits alone. -/
theorem getLsbD_add_of_dvd {w d : Word} (hd : d.toNat % 256 = 0) {i : Nat} (hi : i < 8) :
    (w + d).getLsbD i = w.getLsbD i := by
  have hmod : (w + d).toNat % 2 ^ 8 = w.toNat % 2 ^ 8 := by
    rw [BitVec.toNat_add]
    omega
  have h1 := Nat.testBit_mod_two_pow (w + d).toNat 8 i
  have h2 := Nat.testBit_mod_two_pow w.toNat 8 i
  rw [hmod, h2] at h1
  simp only [hi, decide_true, Bool.true_and, BitVec.testBit_toNat] at h1
  exact h1.symm

theorem view_add_muRlock {w : Word} (h : (view w).readers + 1 < 2 ^ 24) :
    view (w + muRlock) = { view w with readers := (view w).readers + 1 } := by
  have hd : muRlock.toNat % 256 = 0 := by decide
  ext1
  all_goals first | exact getLsbD_add_of_dvd hd (by omega) | skip
  have hw := w.isLt
  have hr : muRlock.toNat = 256 := by decide
  simp only [view, BitVec.toNat_ushiftRight, Nat.shiftRight_eq_div_pow, BitVec.toNat_add,
    hr] at h ⊢
  omega

theorem view_sub_muRlock {w : Word} (h : 0 < (view w).readers) :
    view (w - muRlock) = { view w with readers := (view w).readers - 1 } := by
  have hr : muRlock.toNat = 256 := by decide
  have hw := w.isLt
  have hnat : (w - muRlock).toNat = w.toNat - 256 := by
    simp only [view, BitVec.toNat_ushiftRight, Nat.shiftRight_eq_div_pow] at h
    rw [BitVec.toNat_sub, hr]
    omega
  have hneg : w - muRlock = w + (0#32 - muRlock) := by
    rw [sub_eq_add_neg, BitVec.zero_sub]
  have hd : (0#32 - muRlock).toNat % 256 = 0 := by decide
  ext1
  all_goals first | (rw [hneg]; exact getLsbD_add_of_dvd hd (by omega)) | skip
  simp only [view, BitVec.toNat_ushiftRight, Nat.shiftRight_eq_div_pow, hnat] at h ⊢
  omega

end Nsync
