import Nsync.Time

/-!
# C++ time points

The conversions of `platform/c++11/src/time_rep_timespec.cc` between
`std::chrono::system_clock::time_point` and `struct timespec`.  A time point is the
64-bit number of nanoseconds since the epoch, so that `duration_cast` changes
nothing.  Sums, differences and comparisons of times are those of the POSIX
representation, which have the same text.
-/

namespace Nsync.Time

open Timespec

/-- `nsync_from_time_point_` -/
def fromTimePoint (tp : Int64) : Timespec :=
  let sec := tp / nsInS
  ⟨sec, tp - sec * nsInS⟩

/-- `nsync_to_time_point_` -/
def toTimePoint (t : Timespec) : Int64 := t.tvNsec + nsInS * t.tvSec

/-! ## Conversion and back -/

variable {a b : Int64} {s t : Timespec}

theorem toInt_toTimePoint (t : Timespec) : (toTimePoint t).toInt = t.ns.bmod (2 ^ 64) := by
  rw [toTimePoint, Int64.toInt_add, Int64.toInt_mul, toInt_nsInS, Int.add_bmod_bmod, ns]
  congr 1
  omega

/-- Division that rounds towards zero, on either side of it. -/
theorem tdiv_tmod_cases (x k : ℤ) :
    (0 ≤ x ∧ x.tdiv k = x / k ∧ x.tmod k = x % k) ∨
      (x < 0 ∧ x.tdiv k = -(-x / k) ∧ x.tmod k = -(-x % k)) := by
  rcases le_or_gt 0 x with h | h
  · exact Or.inl ⟨h, Int.tdiv_eq_ediv_of_nonneg h, Int.tmod_eq_emod_of_nonneg h⟩
  · have h' : 0 ≤ -x := by omega
    have hdiv : (-x).tdiv k = -x / k := Int.tdiv_eq_ediv_of_nonneg h'
    have hmod : (-x).tmod k = -x % k := Int.tmod_eq_emod_of_nonneg h'
    rw [Int.neg_tdiv] at hdiv
    rw [Int.neg_tmod] at hmod
    exact Or.inr ⟨h, by omega, by omega⟩

/-- The fields come from a division that rounds towards zero. -/
theorem fromTimePoint_fields (tp : Int64) :
    (fromTimePoint tp).tvSec.toInt = tp.toInt.tdiv (10 ^ 9) ∧
      (fromTimePoint tp).tvNsec.toInt = tp.toInt.tmod (10 ^ 9) := by
  obtain ⟨h0, h1⟩ := fits_toInt tp
  have hsec : (tp / nsInS).toInt = tp.toInt.tdiv (10 ^ 9) := by
    rw [Int64.toInt_div, toInt_nsInS, bmod_of_fits]
    rcases tdiv_tmod_cases tp.toInt (10 ^ 9) with ⟨h, hdiv, -⟩ | ⟨h, hdiv, -⟩
    · rw [hdiv]
      exact ⟨by omega, by omega⟩
    · rw [hdiv]
      exact ⟨by omega, by omega⟩
  refine ⟨hsec, ?_⟩
  have hmul : (tp / nsInS * nsInS).toInt = tp.toInt.tdiv (10 ^ 9) * 10 ^ 9 := by
    rw [toInt_mul, hsec, toInt_nsInS]
    rw [hsec, toInt_nsInS]
    rcases tdiv_tmod_cases tp.toInt (10 ^ 9) with ⟨h, hdiv, -⟩ | ⟨h, hdiv, -⟩
    · rw [hdiv]
      exact ⟨by omega, by omega⟩
    · rw [hdiv]
      exact ⟨by omega, by omega⟩
  rw [fromTimePoint, toInt_sub, hmul]
  · rcases tdiv_tmod_cases tp.toInt (10 ^ 9) with ⟨h, hdiv, hmod⟩ | ⟨h, hdiv, hmod⟩
    · rw [hdiv, hmod]
      omega
    · rw [hdiv, hmod]
      omega
  · rw [hmul]
    rcases tdiv_tmod_cases tp.toInt (10 ^ 9) with ⟨h, hdiv, -⟩ | ⟨h, hdiv, -⟩
    · rw [hdiv]
      exact ⟨by omega, by omega⟩
    · rw [hdiv]
      exact ⟨by omega, by omega⟩

theorem ns_fromTimePoint (tp : Int64) : (fromTimePoint tp).ns = tp.toInt := by
  obtain ⟨hsec, hnsec⟩ := fromTimePoint_fields tp
  have := Int.mul_tdiv_add_tmod tp.toInt (10 ^ 9)
  rw [ns, hsec, hnsec]
  omega

theorem toTimePoint_fromTimePoint (tp : Int64) : toTimePoint (fromTimePoint tp) = tp := by
  apply Int64.toInt_inj.mp
  rw [toInt_toTimePoint, ns_fromTimePoint, bmod_of_fits (fits_toInt tp)]

/-- A number of nanoseconds that is not negative, or of whole seconds. -/
def Whole (n : ℤ) : Prop := 0 ≤ n ∨ 10 ^ 9 ∣ n

theorem normal_fromTimePoint_iff (tp : Int64) : (fromTimePoint tp).Normal ↔ Whole tp.toInt := by
  obtain ⟨-, hnsec⟩ := fromTimePoint_fields tp
  constructor
  · rintro ⟨h0, h1⟩
    rw [hnsec] at h0 h1
    rw [Whole]
    rcases tdiv_tmod_cases tp.toInt (10 ^ 9) with ⟨h, -, hmod⟩ | ⟨h, -, hmod⟩
    · exact Or.inl h
    · exact Or.inr (by omega)
  · intro hw
    rw [Whole] at hw
    rcases tdiv_tmod_cases tp.toInt (10 ^ 9) with ⟨h, -, hmod⟩ | ⟨h, -, hmod⟩
    · exact ⟨by rw [hnsec]; omega, by rw [hnsec]; omega⟩
    · exact ⟨by rw [hnsec]; omega, by rw [hnsec]; omega⟩

/-- The number of seconds is far from the limits of `time_t`. -/
theorem tvSec_fromTimePoint (tp : Int64) :
    -10 ^ 10 < (fromTimePoint tp).tvSec.toInt ∧ (fromTimePoint tp).tvSec.toInt < 10 ^ 10 := by
  obtain ⟨h0, h1⟩ := fits_toInt tp
  obtain ⟨hsec, -⟩ := fromTimePoint_fields tp
  rw [hsec]
  rcases tdiv_tmod_cases tp.toInt (10 ^ 9) with ⟨h, hdiv, -⟩ | ⟨h, hdiv, -⟩
  · rw [hdiv]
    omega
  · rw [hdiv]
    omega

/-! ## Time points as times -/

/-- The conversion takes the time points (or durations) `a` and `b` to normal times
and back, and takes their comparison, sum and difference to those of times. -/
structure Faithful (a b : Int64) : Prop where
  normal : (fromTimePoint a).Normal ∧ (fromTimePoint b).Normal
  roundTrip : toTimePoint (fromTimePoint a) = a ∧ toTimePoint (fromTimePoint b) = b
  cmp : Timespec.cmp (fromTimePoint a) (fromTimePoint b) = cmpWith a b
  add : Fits (a.toInt + b.toInt) →
    Timespec.add (fromTimePoint a) (fromTimePoint b) = fromTimePoint (a + b)
  sub : Fits (a.toInt - b.toInt) →
    Timespec.sub (fromTimePoint a) (fromTimePoint b) = fromTimePoint (a - b)

/-- Time points convert faithfully unless one of them, their sum or their difference
lies before the epoch by a number of nanoseconds that is not a whole number of
seconds. -/
theorem faithful_iff : Faithful a b ↔ (Whole a.toInt ∧ Whole b.toInt) ∧
    (Fits (a.toInt + b.toInt) → Whole (a.toInt + b.toInt)) ∧
    (Fits (a.toInt - b.toInt) → Whole (a.toInt - b.toInt)) := by
  obtain ⟨ha0, ha1⟩ := tvSec_fromTimePoint a
  obtain ⟨hb0, hb1⟩ := tvSec_fromTimePoint b
  have hadd : (fromTimePoint a).Normal → (fromTimePoint b).Normal →
      (Timespec.add (fromTimePoint a) (fromTimePoint b)).Normal ∧
        (Timespec.add (fromTimePoint a) (fromTimePoint b)).ns = a.toInt + b.toInt := by
    intro ha hb
    rw [← ns_fromTimePoint a, ← ns_fromTimePoint b]
    exact add_fields ha hb ⟨by omega, by omega⟩
  have hsub : (fromTimePoint a).Normal → (fromTimePoint b).Normal →
      (Timespec.sub (fromTimePoint a) (fromTimePoint b)).Normal ∧
        (Timespec.sub (fromTimePoint a) (fromTimePoint b)).ns = a.toInt - b.toInt := by
    intro ha hb
    rw [← ns_fromTimePoint a, ← ns_fromTimePoint b]
    exact sub_fields ha hb ⟨by omega, by omega⟩
  constructor
  · rintro ⟨⟨ha, hb⟩, -, -, hsum, hdiff⟩
    refine ⟨⟨(normal_fromTimePoint_iff a).mp ha, (normal_fromTimePoint_iff b).mp hb⟩,
      fun hfits => ?_, fun hfits => ?_⟩
    · rw [← toInt_add hfits, ← normal_fromTimePoint_iff, ← hsum hfits]
      exact (hadd ha hb).1
    · rw [← toInt_sub hfits, ← normal_fromTimePoint_iff, ← hdiff hfits]
      exact (hsub ha hb).1
  · rintro ⟨⟨ha, hb⟩, hsum, hdiff⟩
    have ha' := (normal_fromTimePoint_iff a).mpr ha
    have hb' := (normal_fromTimePoint_iff b).mpr hb
    refine ⟨⟨ha', hb'⟩, ⟨toTimePoint_fromTimePoint a, toTimePoint_fromTimePoint b⟩, ?_,
      fun hfits => ?_, fun hfits => ?_⟩
    · rw [cmp_eq_sign ha' hb', ns_fromTimePoint, ns_fromTimePoint, cmpWith_eq_sign]
    · have hnormal : (fromTimePoint (a + b)).Normal := by
        rw [normal_fromTimePoint_iff, toInt_add hfits]
        exact hsum hfits
      refine (hadd ha' hb').1.ext hnormal ?_
      rw [(hadd ha' hb').2, ns_fromTimePoint, toInt_add hfits]
    · have hnormal : (fromTimePoint (a - b)).Normal := by
        rw [normal_fromTimePoint_iff, toInt_sub hfits]
        exact hdiff hfits
      refine (hsub ha' hb').1.ext hnormal ?_
      rw [(hsub ha' hb').2, ns_fromTimePoint, toInt_sub hfits]

/-- Half a second before the epoch, as a time point and as a second before it and half a
second later: the two times are different and do not compare as equal. -/
theorem half_second_before_epoch :
    ¬ Faithful (-500000000) 0 ∧ ¬ (fromTimePoint (-500000000)).Normal ∧
    Timespec.cmp (Timespec.add (fromTimePoint (-1000000000)) (fromTimePoint 500000000))
      (fromTimePoint (-1000000000 + 500000000)) = -1 := by
  have hnormal : ¬ (fromTimePoint (-500000000)).Normal := by
    intro h
    exact absurd h.nonneg (by decide)
  exact ⟨fun h => hnormal h.normal.1, hnormal, by decide⟩

/-! ## The order of deadlines -/

/-- No time that is not negative and not after `t` converts to a later time point than
`t`. -/
def OrderKept (t : Timespec) : Prop :=
  ∀ s : Timespec, s.Normal → 0 ≤ s.tvSec.toInt → Timespec.cmp s t ≤ 0 →
    toTimePoint s ≤ toTimePoint t

/-- `nsync_note_expiry_timepoint`, on the expiry time of the note. -/
def noteExpiryTimepoint (expiry : Timespec) : Int64 := toTimePoint expiry

/-- The last time that is a time point. -/
def lastTimePoint : Timespec := ⟨9223372036, 854775807⟩

theorem bmod_eq_max_iff {n : ℤ} : n.bmod (2 ^ 64) = 2 ^ 63 - 1 ↔ n % 2 ^ 64 = 2 ^ 63 - 1 := by
  rw [Int.bmod_eq_emod]
  push_cast
  split <;> omega

/-- The order is kept exactly up to the last time point, and at the times that wrap
around to it. -/
theorem orderKept_iff (ht : t.Normal) (h0 : 0 ≤ t.tvSec.toInt) :
    OrderKept t ↔ t.ns < 2 ^ 63 ∨ t.ns % 2 ^ 64 = 2 ^ 63 - 1 := by
  have ht0 := ns_nonneg ht h0
  constructor
  · intro h
    by_contra hcon
    have hlast : lastTimePoint.Normal := ⟨by decide, by decide⟩
    have hns : lastTimePoint.ns = 2 ^ 63 - 1 := by decide
    have hle := h lastTimePoint hlast (by decide)
      ((cmp_nonpos hlast ht).mpr (by rw [hns]; omega))
    rw [Int64.le_iff_toInt_le, toInt_toTimePoint, toInt_toTimePoint, hns,
      bmod_of_fits ⟨by omega, by omega⟩] at hle
    have hbmod : t.ns.bmod (2 ^ 64) = 2 ^ 63 - 1 := by
      have hlt := (toTimePoint t).toInt_lt
      rw [toInt_toTimePoint] at hlt
      omega
    exact hcon (Or.inr (bmod_eq_max_iff.mp hbmod))
  · intro h s hs hs0 hcmp
    have hs0' := ns_nonneg hs hs0
    rw [cmp_nonpos hs ht] at hcmp
    rw [Int64.le_iff_toInt_le]
    rcases h with h | h
    · rw [toInt_toTimePoint, toInt_toTimePoint, bmod_of_fits ⟨by omega, by omega⟩,
        bmod_of_fits ⟨by omega, by omega⟩]
      exact hcmp
    · have hmax : (toTimePoint t).toInt = 2 ^ 63 - 1 := by
        rw [toInt_toTimePoint]
        exact bmod_eq_max_iff.mpr h
      have hlt := (toTimePoint s).toInt_lt
      omega

theorem orderKept_lastTimePoint : OrderKept lastTimePoint :=
  (orderKept_iff ⟨by decide, by decide⟩ (by decide)).mpr (Or.inl (by decide))

/-- The deadline infinitely far in the future converts to the nanosecond before the
epoch. -/
theorem noDeadline_before_epoch :
    ¬ (∀ t : Timespec, t.Normal → 0 ≤ t.tvSec.toInt → OrderKept t) ∧
    Timespec.cmp zero noDeadline ≤ 0 ∧ toTimePoint noDeadline = -1 ∧
    noteExpiryTimepoint noDeadline < noteExpiryTimepoint zero := by
  refine ⟨fun h => ?_, by decide, by decide, by decide⟩
  have hle := h noDeadline noDeadline_normal (by decide) zero ⟨by decide, by decide⟩ (by decide)
    (by decide)
  exact absurd hle (by decide)

end Nsync.Time
