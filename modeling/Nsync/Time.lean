import Mathlib

/-!
# Times

The three integral representations of `nsync_time`: the `struct timespec` of
`platform/posix/src/time_rep.c`, the debug struct with an unsigned field of
`platform/posix/src/time_rep_debug.c`, and the 64-bit integer of
`platform/num_time/src/time_rep.c`.  The types `time_t` and `long` have 64 bits and
`unsigned` has 32.
-/

namespace Nsync.Time

/-- `NSYNC_NS_IN_S_` -/
def nsInS : Int64 := 1000 * 1000 * 1000

/-- The result of a comparison, which is a difference of two truth values in C. -/
def cmpWith {α : Type} [LT α] [DecidableLT α] (a b : α) : ℤ :=
  (if b < a then 1 else 0) - (if a < b then 1 else 0)

/-! ## `struct timespec` -/

structure Timespec where
  tvSec : Int64
  tvNsec : Int64
  deriving DecidableEq, Repr

namespace Timespec

/-- `nsync_time_no_deadline` -/
def noDeadline : Timespec := ⟨Int64.maxValue, nsInS - 1⟩

/-- `nsync_time_zero` -/
def zero : Timespec := ⟨0, 0⟩

/-- `nsync_time_s_ns` -/
def sNs (s : Int64) (ns : UInt32) : Timespec := ⟨s, ns.toUInt64.toInt64⟩

/-- `nsync_time_add` -/
def add (a b : Timespec) : Timespec :=
  let sec := a.tvSec + b.tvSec
  let nsec := a.tvNsec + b.tvNsec
  if nsInS ≤ nsec then ⟨sec + 1, nsec - nsInS⟩ else ⟨sec, nsec⟩

/-- `nsync_time_sub` -/
def sub (a b : Timespec) : Timespec :=
  let sec := a.tvSec - b.tvSec
  if a.tvNsec < b.tvNsec then ⟨sec - 1, a.tvNsec + nsInS - b.tvNsec⟩
  else ⟨sec, a.tvNsec - b.tvNsec⟩

/-- `nsync_time_cmp` -/
def cmp (a b : Timespec) : ℤ :=
  let c := cmpWith a.tvSec b.tvSec
  if c = 0 then cmpWith a.tvNsec b.tvNsec else c

end Timespec

/-! ## The debug struct -/

structure DebugTime where
  seconds : Int64
  nanoseconds : UInt32
  deriving DecidableEq, Repr

namespace DebugTime

def sNs (s : Int64) (ns : UInt32) : DebugTime := ⟨s, ns⟩

def add (a b : DebugTime) : DebugTime :=
  let sec := a.seconds + b.seconds
  let nsec := a.nanoseconds + b.nanoseconds
  if 1000 * 1000 * 1000 ≤ nsec then ⟨sec + 1, nsec - 1000 * 1000 * 1000⟩ else ⟨sec, nsec⟩

def sub (a b : DebugTime) : DebugTime :=
  let sec := a.seconds - b.seconds
  if a.nanoseconds < b.nanoseconds then
    ⟨sec - 1, a.nanoseconds + 1000 * 1000 * 1000 - b.nanoseconds⟩
  else ⟨sec, a.nanoseconds - b.nanoseconds⟩

def cmp (a b : DebugTime) : ℤ :=
  let c := cmpWith a.seconds b.seconds
  if c = 0 then cmpWith a.nanoseconds b.nanoseconds else c

end DebugTime

/-! ## The 64-bit integer -/

namespace IntTime

/-- `nsync_time_s_ns`, where `sizeof (nsync_time)` is 8. -/
def sNs (s : Int64) (ns : UInt32) : Int64 := s * nsInS + ns.toUInt64.toInt64

/-- `NSYNC_TIME_SEC` -/
def sec (t : Int64) : Int64 := t / (1000 * 1000 * 1000)

/-- `NSYNC_TIME_NSEC` -/
def nsec (t : Int64) : Int64 := t % (1000 * 1000 * 1000)

def add (a b : Int64) : Int64 := a + b

def sub (a b : Int64) : Int64 := a - b

def cmp (a b : Int64) : ℤ := cmpWith a b

end IntTime

/-! ## Milliseconds and microseconds -/

/-- `nsync_time_ms`, over the `nsync_time_s_ns` of a representation. -/
def ms {N : Type} (sNs : Int64 → UInt32 → N) (m : UInt32) : N :=
  let s := m / 1000
  sNs s.toUInt64.toInt64 (1000 * 1000 * (m % 1000))

/-- `nsync_time_us` -/
def us {N : Type} (sNs : Int64 → UInt32 → N) (u : UInt32) : N :=
  let s := u / (1000 * 1000)
  sNs s.toUInt64.toInt64 (1000 * (u % (1000 * 1000)))

/-! ## Machine arithmetic that does not overflow -/

section

variable {x y : Int64}

/-- The number is a value of `time_t`. -/
def Fits (n : ℤ) : Prop := -2 ^ 63 ≤ n ∧ n < 2 ^ 63

theorem bmod_of_fits {n : ℤ} (h : Fits n) : n.bmod (2 ^ 64) = n := by
  obtain ⟨h1, h2⟩ := h
  exact Int.bmod_eq_of_le (by norm_num at h1 ⊢; exact h1) (by norm_num at h2 ⊢; exact h2)

theorem fits_toInt (x : Int64) : Fits x.toInt := ⟨x.le_toInt, x.toInt_lt⟩

theorem toInt_add (h : Fits (x.toInt + y.toInt)) : (x + y).toInt = x.toInt + y.toInt := by
  rw [Int64.toInt_add, bmod_of_fits h]

theorem toInt_sub (h : Fits (x.toInt - y.toInt)) : (x - y).toInt = x.toInt - y.toInt := by
  rw [Int64.toInt_sub, bmod_of_fits h]

theorem toInt_mul (h : Fits (x.toInt * y.toInt)) : (x * y).toInt = x.toInt * y.toInt := by
  rw [Int64.toInt_mul, bmod_of_fits h]

theorem toInt_nsInS : nsInS.toInt = 10 ^ 9 := by decide

theorem toInt_ofUInt32 (u : UInt32) : u.toUInt64.toInt64.toInt = u.toNat := by
  have hu := u.toNat_lt
  rw [← Int64.toInt_toBitVec, UInt64.toBitVec_toInt64, BitVec.toInt_eq_toNat_bmod,
    UInt64.toNat_toBitVec, UInt32.toNat_toUInt64]
  exact bmod_of_fits ⟨by omega, by omega⟩

theorem cmpWith_eq_sign (x y : Int64) : cmpWith x y = (x.toInt - y.toInt).sign := by
  rw [cmpWith]
  simp only [Int64.lt_iff_toInt_lt]
  rcases lt_trichotomy x.toInt y.toInt with h | h | h
  · rw [if_neg (by omega), if_pos h, Int.sign_eq_neg_one_of_neg (by omega)]
    rfl
  · rw [if_neg (by omega), if_neg (by omega)]
    simp [h]
  · rw [if_pos h, if_neg (by omega), Int.sign_eq_one_of_pos (by omega)]
    rfl

end

namespace Timespec

variable {a b c : Timespec}

/-- The number of nanoseconds. -/
def ns (t : Timespec) : ℤ := t.tvSec.toInt * 10 ^ 9 + t.tvNsec.toInt

structure Normal (t : Timespec) : Prop where
  nonneg : 0 ≤ t.tvNsec.toInt
  lt : t.tvNsec.toInt < 10 ^ 9

/-- A number of seconds that stays one away from the limits of `time_t`. -/
def Clear (n : ℤ) : Prop := -2 ^ 63 + 1 ≤ n ∧ n ≤ 2 ^ 63 - 2

theorem ext_toInt (hs : a.tvSec.toInt = b.tvSec.toInt) (hn : a.tvNsec.toInt = b.tvNsec.toInt) :
    a = b := by
  cases a
  cases b
  rw [mk.injEq]
  exact ⟨Int64.toInt_inj.mp hs, Int64.toInt_inj.mp hn⟩

/-- Normal times are determined by their number of nanoseconds. -/
theorem Normal.ext (ha : a.Normal) (hb : b.Normal) (h : a.ns = b.ns) : a = b := by
  obtain ⟨ha0, ha1⟩ := ha
  obtain ⟨hb0, hb1⟩ := hb
  simp only [ns] at h
  exact ext_toInt (by omega) (by omega)

/-! ### Sums and differences -/

theorem add_fields (ha : a.Normal) (hb : b.Normal) (hs : Clear (a.tvSec.toInt + b.tvSec.toInt)) :
    (add a b).Normal ∧ (add a b).ns = a.ns + b.ns := by
  obtain ⟨ha0, ha1⟩ := ha
  obtain ⟨hb0, hb1⟩ := hb
  obtain ⟨hs0, hs1⟩ := hs
  have hsec : (a.tvSec + b.tvSec).toInt = a.tvSec.toInt + b.tvSec.toInt :=
    toInt_add ⟨by omega, by omega⟩
  have hnsec : (a.tvNsec + b.tvNsec).toInt = a.tvNsec.toInt + b.tvNsec.toInt :=
    toInt_add ⟨by omega, by omega⟩
  rw [add]
  by_cases hc : nsInS ≤ a.tvNsec + b.tvNsec
  · have hc' : 10 ^ 9 ≤ a.tvNsec.toInt + b.tvNsec.toInt := by
      rwa [Int64.le_iff_toInt_le, toInt_nsInS, hnsec] at hc
    have hcarry : (a.tvSec + b.tvSec + 1).toInt = a.tvSec.toInt + b.tvSec.toInt + 1 := by
      rw [toInt_add (by rw [hsec]; exact ⟨by simp; omega, by simp; omega⟩), hsec]
      rfl
    have hrest : (a.tvNsec + b.tvNsec - nsInS).toInt =
        a.tvNsec.toInt + b.tvNsec.toInt - 10 ^ 9 := by
      rw [toInt_sub (by rw [hnsec, toInt_nsInS]; exact ⟨by omega, by omega⟩), hnsec, toInt_nsInS]
    simp only [if_pos hc]
    exact ⟨⟨by simp only [hrest]; omega, by simp only [hrest]; omega⟩,
      by simp only [ns, hcarry, hrest]; omega⟩
  · have hc' : a.tvNsec.toInt + b.tvNsec.toInt < 10 ^ 9 := by
      rw [Int64.le_iff_toInt_le, toInt_nsInS, hnsec] at hc
      omega
    simp only [if_neg hc]
    exact ⟨⟨by simp only [hnsec]; omega, by simp only [hnsec]; omega⟩,
      by simp only [ns, hsec, hnsec]; omega⟩

theorem sub_fields (ha : a.Normal) (hb : b.Normal) (hs : Clear (a.tvSec.toInt - b.tvSec.toInt)) :
    (sub a b).Normal ∧ (sub a b).ns = a.ns - b.ns := by
  obtain ⟨ha0, ha1⟩ := ha
  obtain ⟨hb0, hb1⟩ := hb
  obtain ⟨hs0, hs1⟩ := hs
  have hsec : (a.tvSec - b.tvSec).toInt = a.tvSec.toInt - b.tvSec.toInt :=
    toInt_sub ⟨by omega, by omega⟩
  rw [sub]
  by_cases hc : a.tvNsec < b.tvNsec
  · have hc' : a.tvNsec.toInt < b.tvNsec.toInt := Int64.lt_iff_toInt_lt.mp hc
    have hborrow : (a.tvSec - b.tvSec - 1).toInt = a.tvSec.toInt - b.tvSec.toInt - 1 := by
      rw [toInt_sub (by rw [hsec]; exact ⟨by simp; omega, by simp; omega⟩), hsec]
      rfl
    have hlent : (a.tvNsec + nsInS).toInt = a.tvNsec.toInt + 10 ^ 9 := by
      rw [toInt_add (by rw [toInt_nsInS]; exact ⟨by omega, by omega⟩), toInt_nsInS]
    have hrest : (a.tvNsec + nsInS - b.tvNsec).toInt =
        a.tvNsec.toInt + 10 ^ 9 - b.tvNsec.toInt := by
      rw [toInt_sub (by rw [hlent]; exact ⟨by omega, by omega⟩), hlent]
    simp only [if_pos hc]
    exact ⟨⟨by simp only [hrest]; omega, by simp only [hrest]; omega⟩,
      by simp only [ns, hborrow, hrest]; omega⟩
  · have hc' : b.tvNsec.toInt ≤ a.tvNsec.toInt := by
      rw [Int64.lt_iff_toInt_lt] at hc
      omega
    have hrest : (a.tvNsec - b.tvNsec).toInt = a.tvNsec.toInt - b.tvNsec.toInt :=
      toInt_sub ⟨by omega, by omega⟩
    simp only [if_neg hc]
    exact ⟨⟨by simp only [hrest]; omega, by simp only [hrest]; omega⟩,
      by simp only [ns, hsec, hrest]; omega⟩

theorem sub_add (ha : a.Normal) (hb : b.Normal) : sub (add a b) b = a := by
  obtain ⟨ha0, ha1⟩ := ha
  obtain ⟨hb0, hb1⟩ := hb
  have hnsec : (a.tvNsec + b.tvNsec).toInt = a.tvNsec.toInt + b.tvNsec.toInt :=
    toInt_add ⟨by omega, by omega⟩
  rw [add]
  by_cases hc : nsInS ≤ a.tvNsec + b.tvNsec
  · have hc' : 10 ^ 9 ≤ a.tvNsec.toInt + b.tvNsec.toInt := by
      rwa [Int64.le_iff_toInt_le, toInt_nsInS, hnsec] at hc
    have hrest : (a.tvNsec + b.tvNsec - nsInS).toInt =
        a.tvNsec.toInt + b.tvNsec.toInt - 10 ^ 9 := by
      rw [toInt_sub (by rw [hnsec, toInt_nsInS]; exact ⟨by omega, by omega⟩), hnsec, toInt_nsInS]
    have hborrow : a.tvNsec + b.tvNsec - nsInS < b.tvNsec := by
      rw [Int64.lt_iff_toInt_lt, hrest]
      omega
    simp only [if_pos hc, sub, if_pos hborrow]
    cases a
    rw [mk.injEq]
    exact ⟨by grind, by grind⟩
  · have hborrow : ¬ a.tvNsec + b.tvNsec < b.tvNsec := by
      rw [Int64.lt_iff_toInt_lt, hnsec]
      omega
    simp only [if_neg hc, sub, if_neg hborrow]
    cases a
    rw [mk.injEq]
    exact ⟨by grind, by grind⟩

/-! ### The order -/

theorem cmp_eq_sign (ha : a.Normal) (hb : b.Normal) : cmp a b = (a.ns - b.ns).sign := by
  obtain ⟨ha0, ha1⟩ := ha
  obtain ⟨hb0, hb1⟩ := hb
  rw [cmp, cmpWith_eq_sign, cmpWith_eq_sign]
  simp only [ns]
  rcases lt_trichotomy a.tvSec.toInt b.tvSec.toInt with h | h | h
  · have hsec : (a.tvSec.toInt - b.tvSec.toInt).sign = -1 :=
      Int.sign_eq_neg_one_of_neg (by omega)
    rw [hsec, if_neg (by decide), Int.sign_eq_neg_one_of_neg (by omega)]
  · rw [h, Int.sub_self, Int.sign_zero, if_pos rfl]
    congr 1
    omega
  · have hsec : (a.tvSec.toInt - b.tvSec.toInt).sign = 1 := Int.sign_eq_one_of_pos (by omega)
    rw [hsec, if_neg (by decide), Int.sign_eq_one_of_pos (by omega)]

theorem cmp_nonpos (ha : a.Normal) (hb : b.Normal) : cmp a b ≤ 0 ↔ a.ns ≤ b.ns := by
  rw [cmp_eq_sign ha hb]
  rcases lt_trichotomy (a.ns - b.ns) 0 with h | h | h
  · rw [Int.sign_eq_neg_one_of_neg h]
    omega
  · rw [h, Int.sign_zero]
    omega
  · rw [Int.sign_eq_one_of_pos h]
    omega

theorem noDeadline_normal : noDeadline.Normal := ⟨by decide, by decide⟩

theorem le_noDeadline (ha : a.Normal) : a.ns ≤ noDeadline.ns := by
  have hsec := a.tvSec.toInt_lt
  have hns := ha.lt
  have hmax : noDeadline.ns = (2 ^ 63 - 1) * 10 ^ 9 + (10 ^ 9 - 1) := by decide
  rw [hmax, ns]
  omega

/-! ### The other representations -/

/-- `NSYNC_TIME_NSEC (t)`, as it is passed to a parameter of type `unsigned`. -/
def nsecArg (t : Timespec) : UInt32 := t.tvNsec.toUInt64.toUInt32

/-- The time in the debug struct. -/
def toDebug (t : Timespec) : DebugTime := DebugTime.sNs t.tvSec t.nsecArg

/-- The time as a 64-bit integer. -/
def toIntTime (t : Timespec) : Int64 := IntTime.sNs t.tvSec t.nsecArg

theorem Normal.nsecArg (ha : a.Normal) : (a.nsecArg.toNat : ℤ) = a.tvNsec.toInt := by
  obtain ⟨ha0, ha1⟩ := ha
  have htoNat : (a.tvNsec.toUInt64.toNat : ℤ) = a.tvNsec.toInt := by
    rw [Int64.toNat_toUInt64_of_le (Int64.le_iff_toInt_le.mpr ha0), Int64.toNatClampNeg]
    exact Int.toNat_of_nonneg ha0
  rw [Timespec.nsecArg, UInt64.toNat_toUInt32]
  omega

end Timespec

/-- The fields of a debug time, as those of a `struct timespec`. -/
def DebugTime.timespec (t : DebugTime) : Timespec := ⟨t.seconds, t.nanoseconds.toUInt64.toInt64⟩

/-- The fields that `NSYNC_TIME_SEC` and `NSYNC_TIME_NSEC` read off an integer. -/
def IntTime.timespec (t : Int64) : Timespec := ⟨IntTime.sec t, IntTime.nsec t⟩

namespace Timespec

variable {a b : Timespec}

theorem Normal.timespec_toDebug (ha : a.Normal) : a.toDebug.timespec = a :=
  ext_toInt rfl (by rw [toDebug, DebugTime.sNs, DebugTime.timespec, toInt_ofUInt32, ha.nsecArg])

theorem Normal.nsecArg_lt (ha : a.Normal) : a.nsecArg.toNat < 10 ^ 9 := by
  have h := ha.nsecArg
  have hlt := ha.lt
  omega

theorem toNat_billion : (1000 * 1000 * 1000 : UInt32).toNat = 10 ^ 9 := rfl

theorem timespec_debug_add (ha : a.Normal) (hb : b.Normal) :
    (DebugTime.add a.toDebug b.toDebug).timespec = add a b := by
  have ha' := ha.nsecArg
  have hb' := hb.nsecArg
  obtain ⟨ha0, ha1⟩ := ha
  obtain ⟨hb0, hb1⟩ := hb
  have hu : (a.nsecArg + b.nsecArg).toNat = a.nsecArg.toNat + b.nsecArg.toNat := by
    rw [UInt32.toNat_add]
    omega
  have hs : (a.tvNsec + b.tvNsec).toInt = a.tvNsec.toInt + b.tvNsec.toInt :=
    toInt_add ⟨by omega, by omega⟩
  have hc : (1000 * 1000 * 1000 ≤ a.nsecArg + b.nsecArg) ↔ nsInS ≤ a.tvNsec + b.tvNsec := by
    rw [UInt32.le_iff_toNat_le, Int64.le_iff_toInt_le, toInt_nsInS, hu, hs, toNat_billion]
    omega
  rw [add, DebugTime.add]
  simp only [toDebug, DebugTime.sNs, hc]
  by_cases h : nsInS ≤ a.tvNsec + b.tvNsec
  · have hle : (1000 * 1000 * 1000 : UInt32) ≤ a.nsecArg + b.nsecArg := hc.mpr h
    rw [Int64.le_iff_toInt_le, toInt_nsInS, hs] at h
    rw [if_pos (hc.mp hle), if_pos (hc.mp hle)]
    refine ext_toInt rfl ?_
    rw [DebugTime.timespec, toInt_ofUInt32, UInt32.toNat_sub_of_le _ _ hle, hu, toNat_billion,
      toInt_sub (by rw [hs, toInt_nsInS]; exact ⟨by omega, by omega⟩), hs, toInt_nsInS]
    omega
  · rw [if_neg h, if_neg h]
    refine ext_toInt rfl ?_
    rw [DebugTime.timespec, toInt_ofUInt32, hu, hs]
    omega

theorem timespec_debug_sub (ha : a.Normal) (hb : b.Normal) :
    (DebugTime.sub a.toDebug b.toDebug).timespec = sub a b := by
  have ha' := ha.nsecArg
  have hb' := hb.nsecArg
  obtain ⟨ha0, ha1⟩ := ha
  obtain ⟨hb0, hb1⟩ := hb
  have hc : (a.nsecArg < b.nsecArg) ↔ a.tvNsec < b.tvNsec := by
    rw [UInt32.lt_iff_toNat_lt, Int64.lt_iff_toInt_lt]
    omega
  rw [sub, DebugTime.sub]
  simp only [toDebug, DebugTime.sNs, hc]
  by_cases h : a.tvNsec < b.tvNsec
  · have hlt := Int64.lt_iff_toInt_lt.mp h
    have hu : (a.nsecArg + 1000 * 1000 * 1000).toNat = a.nsecArg.toNat + 10 ^ 9 := by
      rw [UInt32.toNat_add, toNat_billion]
      omega
    have hs : (a.tvNsec + nsInS).toInt = a.tvNsec.toInt + 10 ^ 9 := by
      rw [toInt_add (by rw [toInt_nsInS]; exact ⟨by omega, by omega⟩), toInt_nsInS]
    have hle : b.nsecArg ≤ a.nsecArg + 1000 * 1000 * 1000 := by
      rw [UInt32.le_iff_toNat_le, hu]
      omega
    rw [if_pos h, if_pos h]
    refine ext_toInt rfl ?_
    rw [DebugTime.timespec, toInt_ofUInt32, UInt32.toNat_sub_of_le _ _ hle, hu,
      toInt_sub (by rw [hs]; exact ⟨by omega, by omega⟩), hs]
    omega
  · have hge : b.tvNsec.toInt ≤ a.tvNsec.toInt := by
      rw [Int64.lt_iff_toInt_lt] at h
      omega
    have hle : b.nsecArg ≤ a.nsecArg := by
      rw [UInt32.le_iff_toNat_le]
      omega
    rw [if_neg h, if_neg h]
    refine ext_toInt rfl ?_
    rw [DebugTime.timespec, toInt_ofUInt32, UInt32.toNat_sub_of_le _ _ hle,
      toInt_sub ⟨by omega, by omega⟩]
    omega

theorem debug_cmp (ha : a.Normal) (hb : b.Normal) :
    DebugTime.cmp a.toDebug b.toDebug = cmp a b := by
  have ha' := ha.nsecArg
  have hb' := hb.nsecArg
  have hlt : (a.nsecArg < b.nsecArg) ↔ a.tvNsec < b.tvNsec := by
    rw [UInt32.lt_iff_toNat_lt, Int64.lt_iff_toInt_lt]
    omega
  have hgt : (b.nsecArg < a.nsecArg) ↔ b.tvNsec < a.tvNsec := by
    rw [UInt32.lt_iff_toNat_lt, Int64.lt_iff_toInt_lt]
    omega
  have hcmp : cmpWith a.nsecArg b.nsecArg = cmpWith a.tvNsec b.tvNsec := by
    rw [cmpWith, cmpWith, if_congr hgt rfl rfl, if_congr hlt rfl rfl]
  simp only [DebugTime.cmp, cmp, toDebug, DebugTime.sNs, hcmp]

/-- The integer holds the number of nanoseconds, reduced to 64 bits. -/
theorem toInt_toIntTime (ha : a.Normal) : a.toIntTime.toInt = a.ns.bmod (2 ^ 64) := by
  rw [toIntTime, IntTime.sNs, Int64.toInt_add, Int64.toInt_mul, toInt_ofUInt32, toInt_nsInS,
    ha.nsecArg, Int.bmod_add_bmod, ns]

/-- The fields read off an integer that holds a non-negative number of
nanoseconds. -/
theorem timespec_of_ns {t : Int64} (ha : a.Normal) (h : t.toInt = a.ns) (h0 : 0 ≤ a.ns) :
    IntTime.timespec t = a := by
  obtain ⟨ha0, ha1⟩ := ha
  have hbillion : (1000 * 1000 * 1000 : Int64).toInt = 10 ^ 9 := toInt_nsInS
  have hfits := fits_toInt a.tvSec
  refine ext_toInt ?_ ?_
  · rw [IntTime.timespec, IntTime.sec, Int64.toInt_div, h, hbillion, Int.tdiv_eq_ediv_of_nonneg h0]
    have hdiv : a.ns / 10 ^ 9 = a.tvSec.toInt := by
      rw [ns]
      omega
    rw [hdiv, bmod_of_fits hfits]
  · rw [IntTime.timespec, IntTime.nsec, Int64.toInt_mod, h, hbillion, Int.tmod_eq_emod_of_nonneg h0]
    rw [ns]
    omega

theorem toInt_toIntTime_of_fits (ha : a.Normal) (hfits : Fits a.ns) : a.toIntTime.toInt = a.ns := by
  rw [toInt_toIntTime ha, bmod_of_fits hfits]

theorem ns_nonneg (ha : a.Normal) (hs : 0 ≤ a.tvSec.toInt) : 0 ≤ a.ns := by
  have h0 := ha.nonneg
  rw [ns]
  omega

theorem timespec_int_add (ha : a.Normal) (hb : b.Normal) (ha0 : 0 ≤ a.tvSec.toInt)
    (hb0 : 0 ≤ b.tvSec.toInt) (hfits : a.ns + b.ns < 2 ^ 63) :
    IntTime.timespec (IntTime.add a.toIntTime b.toIntTime) = add a b := by
  have hna := ns_nonneg ha ha0
  have hnb := ns_nonneg hb hb0
  have hsec : Clear (a.tvSec.toInt + b.tvSec.toInt) := by
    have h1 := ha.nonneg
    have h2 := hb.nonneg
    simp only [ns] at hfits
    exact ⟨by omega, by omega⟩
  obtain ⟨hnormal, hns⟩ := add_fields ha hb hsec
  have hta := toInt_toIntTime_of_fits ha ⟨by omega, by omega⟩
  have htb := toInt_toIntTime_of_fits hb ⟨by omega, by omega⟩
  refine timespec_of_ns hnormal ?_ (by omega)
  rw [IntTime.add, toInt_add (by rw [hta, htb]; exact ⟨by omega, by omega⟩), hta, htb, hns]

theorem timespec_int_sub (ha : a.Normal) (hb : b.Normal) (ha0 : 0 ≤ a.tvSec.toInt)
    (hb0 : 0 ≤ b.tvSec.toInt) (hfits : a.ns < 2 ^ 63) (hle : b.ns ≤ a.ns) :
    IntTime.timespec (IntTime.sub a.toIntTime b.toIntTime) = sub a b := by
  have hna := ns_nonneg ha ha0
  have hnb := ns_nonneg hb hb0
  have hsec : Clear (a.tvSec.toInt - b.tvSec.toInt) := by
    have h1 := ha.nonneg
    have h2 := hb.lt
    simp only [ns] at hfits
    have hsb := b.tvSec.toInt_lt
    exact ⟨by omega, by omega⟩
  obtain ⟨hnormal, hns⟩ := sub_fields ha hb hsec
  have hta := toInt_toIntTime_of_fits ha ⟨by omega, by omega⟩
  have htb := toInt_toIntTime_of_fits hb ⟨by omega, by omega⟩
  refine timespec_of_ns hnormal ?_ (by omega)
  rw [IntTime.sub, toInt_sub (by rw [hta, htb]; exact ⟨by omega, by omega⟩), hta, htb, hns]

theorem int_cmp (ha : a.Normal) (hb : b.Normal) (hfa : Fits a.ns) (hfb : Fits b.ns) :
    IntTime.cmp a.toIntTime b.toIntTime = cmp a b := by
  rw [IntTime.cmp, cmpWith_eq_sign, toInt_toIntTime_of_fits ha hfa, toInt_toIntTime_of_fits hb hfb,
    cmp_eq_sign ha hb]

end Timespec

/-! ## Milliseconds and microseconds -/

theorem ms_args (m : UInt32) :
    (m / 1000).toNat = m.toNat / 1000 ∧
      (1000 * 1000 * (m % 1000)).toNat = 10 ^ 6 * (m.toNat % 1000) := by
  have hm := m.toNat_lt
  have hmod : (m % 1000).toNat = m.toNat % 1000 := UInt32.toNat_mod ..
  refine ⟨UInt32.toNat_div .., ?_⟩
  rw [UInt32.toNat_mul, hmod]
  have hmillion : (1000 * 1000 : UInt32).toNat = 10 ^ 6 := rfl
  rw [hmillion]
  omega

theorem us_args (u : UInt32) :
    (u / (1000 * 1000)).toNat = u.toNat / 10 ^ 6 ∧
      (1000 * (u % (1000 * 1000))).toNat = 10 ^ 3 * (u.toNat % 10 ^ 6) := by
  have hu := u.toNat_lt
  have hmod : (u % (1000 * 1000)).toNat = u.toNat % 10 ^ 6 := UInt32.toNat_mod ..
  refine ⟨UInt32.toNat_div .., ?_⟩
  rw [UInt32.toNat_mul, hmod]
  have hthousand : (1000 : UInt32).toNat = 10 ^ 3 := rfl
  rw [hthousand]
  omega

namespace Timespec

theorem ms_fields (m : UInt32) :
    (ms sNs m).Normal ∧ (ms sNs m).ns = (m.toNat : ℤ) * 10 ^ 6 := by
  obtain ⟨hdiv, hmod⟩ := ms_args m
  have hsec : (ms sNs m).tvSec.toInt = m.toNat / 1000 := by
    rw [ms, sNs, toInt_ofUInt32, hdiv]
    omega
  have hnsec : (ms sNs m).tvNsec.toInt = 10 ^ 6 * (m.toNat % 1000) := by
    rw [ms, sNs, toInt_ofUInt32, hmod]
    omega
  refine ⟨⟨by rw [hnsec]; omega, by rw [hnsec]; omega⟩, ?_⟩
  rw [ns, hsec, hnsec]
  omega

theorem us_fields (u : UInt32) :
    (us sNs u).Normal ∧ (us sNs u).ns = (u.toNat : ℤ) * 10 ^ 3 := by
  obtain ⟨hdiv, hmod⟩ := us_args u
  have hsec : (us sNs u).tvSec.toInt = u.toNat / 10 ^ 6 := by
    rw [us, sNs, toInt_ofUInt32, hdiv]
    omega
  have hnsec : (us sNs u).tvNsec.toInt = 10 ^ 3 * (u.toNat % 10 ^ 6) := by
    rw [us, sNs, toInt_ofUInt32, hmod]
    omega
  refine ⟨⟨by rw [hnsec]; omega, by rw [hnsec]; omega⟩, ?_⟩
  rw [ns, hsec, hnsec]
  omega

end Timespec

/-- An integer time built from seconds and nanoseconds is that of the `struct timespec`
built from them. -/
theorem IntTime.sNs_eq (s : Int64) (n : UInt32) (h : (Timespec.sNs s n).Normal) :
    IntTime.sNs s n = (Timespec.sNs s n).toIntTime := by
  have harg : (Timespec.sNs s n).nsecArg = n := by
    apply UInt32.toNat_inj.mp
    have hn := h.nsecArg
    rw [Timespec.sNs, toInt_ofUInt32] at hn
    exact_mod_cast hn
  rw [Timespec.toIntTime, harg]
  rfl

/-! ## The representations agree -/

open Timespec in
/-- Sums, differences and comparisons of times are those of their numbers of
nanoseconds, in each of the representations. -/
theorem representations_agree :
    (∀ a b : Timespec, a.Normal → b.Normal →
      Clear (a.tvSec.toInt + b.tvSec.toInt) → Clear (a.tvSec.toInt - b.tvSec.toInt) →
      ((add a b).Normal ∧ (add a b).ns = a.ns + b.ns) ∧
      ((sub a b).Normal ∧ (sub a b).ns = a.ns - b.ns) ∧
      sub (add a b) b = a) ∧
    -- the order
    (∀ a b : Timespec, a.Normal → b.Normal →
      cmp a b = (a.ns - b.ns).sign ∧ (cmp a b ≤ 0 ∨ cmp b a ≤ 0) ∧
      (cmp a b ≤ 0 → cmp b a ≤ 0 → a = b) ∧
      (∀ c : Timespec, c.Normal → cmp a b ≤ 0 → cmp b c ≤ 0 → cmp a c ≤ 0)) ∧
    (noDeadline.Normal ∧ ∀ a : Timespec, a.Normal → cmp a noDeadline ≤ 0) ∧
    -- the debug struct
    (∀ a b : Timespec, a.Normal → b.Normal →
      a.toDebug.timespec = a ∧
      (DebugTime.add a.toDebug b.toDebug).timespec = add a b ∧
      (DebugTime.sub a.toDebug b.toDebug).timespec = sub a b ∧
      DebugTime.cmp a.toDebug b.toDebug = cmp a b) ∧
    -- the 64-bit integer
    (∀ a b : Timespec, a.Normal → b.Normal → 0 ≤ a.tvSec.toInt → 0 ≤ b.tvSec.toInt →
      a.ns < 2 ^ 63 → b.ns < 2 ^ 63 →
      IntTime.timespec a.toIntTime = a ∧
      (a.ns + b.ns < 2 ^ 63 →
        IntTime.timespec (IntTime.add a.toIntTime b.toIntTime) = add a b) ∧
      (b.ns ≤ a.ns → IntTime.timespec (IntTime.sub a.toIntTime b.toIntTime) = sub a b) ∧
      IntTime.cmp a.toIntTime b.toIntTime = cmp a b) ∧
    (∀ m : UInt32,
      ((ms sNs m).Normal ∧ (ms sNs m).ns = (m.toNat : ℤ) * 10 ^ 6) ∧
      (ms DebugTime.sNs m).timespec = ms sNs m ∧
      (ms IntTime.sNs m).toInt = (m.toNat : ℤ) * 10 ^ 6) ∧
    (∀ u : UInt32,
      ((us sNs u).Normal ∧ (us sNs u).ns = (u.toNat : ℤ) * 10 ^ 3) ∧
      (us DebugTime.sNs u).timespec = us sNs u ∧
      (us IntTime.sNs u).toInt = (u.toNat : ℤ) * 10 ^ 3) := by
  refine ⟨fun a b ha hb hsum hdiff => ?_, fun a b ha hb => ?_, ?_, fun a b ha hb => ?_,
    fun a b ha hb ha0 hb0 hfa hfb => ?_, fun m => ?_, fun u => ?_⟩
  · exact ⟨add_fields ha hb hsum, sub_fields ha hb hdiff, sub_add ha hb⟩
  · rw [cmp_nonpos ha hb, cmp_nonpos hb ha]
    refine ⟨cmp_eq_sign ha hb, le_total _ _, fun h1 h2 => ha.ext hb (le_antisymm h1 h2),
      fun c hc h1 h2 => ?_⟩
    rw [cmp_nonpos hb hc] at h2
    rw [cmp_nonpos ha hc]
    exact h1.trans h2
  · exact ⟨noDeadline_normal, fun a ha => (cmp_nonpos ha noDeadline_normal).mpr (le_noDeadline ha)⟩
  · exact ⟨ha.timespec_toDebug, timespec_debug_add ha hb, timespec_debug_sub ha hb, debug_cmp ha hb⟩
  · have hna := ns_nonneg ha ha0
    have hnb := ns_nonneg hb hb0
    have hfits : Fits a.ns := ⟨by omega, hfa⟩
    exact ⟨timespec_of_ns ha (toInt_toIntTime_of_fits ha hfits) hna,
      timespec_int_add ha hb ha0 hb0, timespec_int_sub ha hb ha0 hb0 hfa,
      int_cmp ha hb hfits ⟨by omega, hfb⟩⟩
  · obtain ⟨hnormal, hns⟩ := ms_fields m
    refine ⟨⟨hnormal, hns⟩, rfl, ?_⟩
    have hm := m.toNat_lt
    have hint : ms IntTime.sNs m = (ms sNs m).toIntTime := IntTime.sNs_eq _ _ hnormal
    rw [hint, toInt_toIntTime_of_fits hnormal (by rw [hns]; exact ⟨by omega, by omega⟩), hns]
  · obtain ⟨hnormal, hns⟩ := us_fields u
    refine ⟨⟨hnormal, hns⟩, rfl, ?_⟩
    have hu := u.toNat_lt
    have hint : us IntTime.sNs u = (us sNs u).toIntTime := IntTime.sNs_eq _ _ hnormal
    rw [hint, toInt_toIntTime_of_fits hnormal (by rw [hns]; exact ⟨by omega, by omega⟩), hns]

open Timespec in
theorem representations_agree_borrow :
    (sub ⟨0, 250000000⟩ ⟨1, 500000000⟩).ns = -1250000000 ∧
    sub ⟨0, 250000000⟩ ⟨1, 500000000⟩ = ⟨-2, 750000000⟩ ∧
    (DebugTime.sub ⟨0, 250000000⟩ ⟨1, 500000000⟩).timespec = ⟨-2, 750000000⟩ := by
  have ha : (⟨0, 250000000⟩ : Timespec).Normal := ⟨by decide, by decide⟩
  have hb : (⟨1, 500000000⟩ : Timespec).Normal := ⟨by decide, by decide⟩
  obtain ⟨harith, -, -, hdebug, -⟩ := representations_agree
  refine ⟨?_, by decide, ?_⟩
  · rw [(harith _ _ ha hb ⟨by decide, by decide⟩ ⟨by decide, by decide⟩).2.1.2]
    decide
  · exact (hdebug _ _ ha hb).2.2.1

end Nsync.Time
