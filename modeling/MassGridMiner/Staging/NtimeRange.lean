import MassGridMiner.Lib.Buffer
import MassGridMiner.Lib.FixedWidth
import MassGridMiner.Stratum.Job

/-!
# How far the time of a work may be rolled

A work may be given other times within fixed limits, and within limits that move with the clock.
`work_ntime_range` sets the earliest time that every nonce found in an interval may have, or one
nearer to its middle, and returns how many seconds remain.  It adds signed seconds to unsigned
32-bit times, so that a sum may come out on the other side of the limits.

## Main definitions

* `ClockTime`, `RollLimits`, `TimedWork` — the records, with the widths of their fields.
* `workNtimeRange` — the function of the source.
* `KeepsRange` — what it should do, in integers.
* `keepsRange_iff` — when it does.
-/

namespace MassGridMiner

/-- A `struct timeval` of the clock, whose microseconds are fewer than a second. -/
structure ClockTime where
  sec : ℤ
  usec : ℕ
  usec_lt : usec < 1000000

namespace ClockTime

/-- A time is not after another. -/
def Le (t t' : ClockTime) : Prop := t.sec < t'.sec ∨ t.sec = t'.sec ∧ t.usec ≤ t'.usec

/-- The whole seconds that `timersub` gives. -/
def elapsed (timer now : ClockTime) : ℤ :=
  if now.usec < timer.usec then now.sec - timer.sec - 1 else now.sec - timer.sec

theorem elapsed_nonneg {timer now : ClockTime} (H : timer.Le now) : 0 ≤ timer.elapsed now := by
  rw [elapsed]
  rcases H with H | H <;> split <;> omega

theorem elapsed_mono (timer : ClockTime) {now later : ClockTime} (H : now.Le later) :
    timer.elapsed now ≤ timer.elapsed later := by
  rw [elapsed, elapsed]
  rcases H with H | H <;> split <;> split <;> omega

end ClockTime

/-- `timer_elapsed`. -/
def timerElapsed (timer now : ClockTime) : Int32 := Int32.ofInt (timer.elapsed now)

/-- `struct ntime_roll_limits`, with the widths of its fields. -/
structure RollLimits where
  min : UInt32
  max : UInt32
  tvRef : ClockTime
  minoff : Int16
  maxoff : Int16

/-- `set_simple_ntime_roll_limit`. -/
def RollLimits.setSimple (ntimeBase : UInt32) (ntimeRoll : Int32) (tvRef : ClockTime) :
    RollLimits :=
  let offsets := Max.max ntimeRoll 60
  { min := ntimeBase
    max := ntimeBase + ntimeRoll.toUInt32
    tvRef := tvRef
    minoff := (-offsets).toInt16
    maxoff := offsets.toInt16 }

/-- The same limits without the widths. -/
def RollLimits.widen (limits : RollLimits) : NtimeRollLimits :=
  { min := limits.min
    max := limits.max
    tvRef := limits.tvRef.sec.toNat
    minoff := limits.minoff.toInt
    maxoff := limits.maxoff.toInt }

/-- The limits of a job are these ones, unless its roll is more than the offsets can hold. -/
theorem RollLimits.widen_setSimple (ntimeBase : UInt32) {ntimeRoll : ℕ} (H : ntimeRoll < 2 ^ 15)
    (tvRef : ClockTime) :
    (RollLimits.setSimple ntimeBase (Int32.ofNat ntimeRoll) tvRef).widen =
      setSimpleNtimeRollLimit ntimeBase ntimeRoll tvRef.sec.toNat := by
  have hmax : Max.max (Int32.ofNat ntimeRoll) 60 = Int32.ofNat (Max.max ntimeRoll 60) := by
    have hle : Int32.ofNat ntimeRoll ≤ 60 ↔ ntimeRoll ≤ 60 := by
      rw [Int32.le_iff_toInt_le, Int32.toInt_ofNat_of_lt (by omega)]
      have h60 : (60 : Int32).toInt = 60 := by decide
      rw [h60]
      omega
    by_cases h : ntimeRoll ≤ 60
    · rw [max_eq_right h]
      exact if_pos (hle.mpr h)
    · rw [max_eq_left (by omega : 60 ≤ ntimeRoll)]
      exact if_neg (fun h' => h (hle.mp h'))
  have hoffsets : (Int32.ofNat (Max.max ntimeRoll 60)).toInt = (Max.max ntimeRoll 60 : ℕ) :=
    Int32.toInt_ofNat_of_lt (by omega)
  have hneg : (-Int32.ofNat (Max.max ntimeRoll 60)).toInt = -(Max.max ntimeRoll 60 : ℕ) := by
    rw [Int32.toInt_neg, hoffsets]
    exact Int.bmod_eq_of_le_mul_two (by push_cast; omega) (by push_cast; omega)
  rw [widen, setSimple, setSimpleNtimeRollLimit, hmax]
  simp only [Int32.toInt_toInt16, hneg, hoffsets]
  rw [Int.bmod_eq_of_le_mul_two (by push_cast; omega) (by push_cast; omega),
    Int.bmod_eq_of_le_mul_two (by push_cast; omega) (by push_cast; omega), Nat.cast_max]
  rfl

/-- The part of `struct work` that `work_ntime_range` reads and writes. -/
structure TimedWork where
  data : Bytes 128
  ntimeRollLimits : RollLimits

namespace TimedWork

/-- `work_get_ntime`. -/
def ntime (work : TimedWork) : UInt32 := ofBe32 ((work.data.toList.drop 68).take 4)

/-- `work_set_ntime`. -/
def setNtime (work : TimedWork) (ntime : UInt32) : TimedWork :=
  { work with data := work.data.overwrite 68 (be32 ntime) }

/-- The variables of `work_ntime_range`. -/
def minNtime (work : TimedWork) (latest : ClockTime) : UInt32 :=
  let nrl := work.ntimeRollLimits
  max nrl.min
    (work.ntime + (timerElapsed nrl.tvRef latest).toUInt32 + 1 + nrl.minoff.toInt32.toUInt32)

def maxNtime (work : TimedWork) (earliest : ClockTime) : UInt32 :=
  let nrl := work.ntimeRollLimits
  min nrl.max
    (work.ntime + (timerElapsed nrl.tvRef earliest).toUInt32 + nrl.maxoff.toInt32.toUInt32)

def idealNtime (work : TimedWork) (earliest latest : ClockTime) : UInt32 :=
  let earliestElapsed := timerElapsed work.ntimeRollLimits.tvRef earliest
  let latestElapsed := timerElapsed work.ntimeRollLimits.tvRef latest
  let midElapsed := (latestElapsed - earliestElapsed) / 2 + earliestElapsed
  work.ntime + midElapsed.toUInt32

/-- The earliest time, moved towards the ideal one as long as the desired roll remains. -/
def adjustNtime (minNtime maxNtime idealNtime : UInt32) (desiredRoll : Int32) : UInt32 :=
  if maxNtime - minNtime > desiredRoll.toUInt32 then
    if idealNtime > minNtime then min idealNtime (maxNtime - desiredRoll.toUInt32) else minNtime
  else minNtime

/-- `work_ntime_range`: what it returns, and the work as it is left. -/
def workNtimeRange (work : TimedWork) (earliest latest : ClockTime) (desiredRoll : Int32) :
    Int32 × TimedWork :=
  let minNtime := work.minNtime latest
  let maxNtime := work.maxNtime earliest
  if maxNtime < minNtime then (-1, work)
  else
    let ntime := adjustNtime minNtime maxNtime (work.idealNtime earliest latest) desiredRoll
    ((maxNtime - ntime).toInt32, work.setNtime ntime)

/-! ## In integers -/

/-- The sums of the moving limits. -/
def minSum (work : TimedWork) (latest : ClockTime) : ℤ :=
  work.ntime.toNat + work.ntimeRollLimits.tvRef.elapsed latest + 1 +
    work.ntimeRollLimits.minoff.toInt

def maxSum (work : TimedWork) (earliest : ClockTime) : ℤ :=
  work.ntime.toNat + work.ntimeRollLimits.tvRef.elapsed earliest +
    work.ntimeRollLimits.maxoff.toInt

/-- The earliest and the latest time that the work may have. -/
def lo (work : TimedWork) (latest : ClockTime) : ℤ :=
  max (work.ntimeRollLimits.min.toNat : ℤ) (work.minSum latest)

def hi (work : TimedWork) (earliest : ClockTime) : ℤ :=
  min (work.ntimeRollLimits.max.toNat : ℤ) (work.maxSum earliest)

/-- An empty range leaves the work alone; else the new time and what remains of the range lie
in it, and the roll is as desired where there is room. -/
structure KeepsRange (work : TimedWork) (earliest latest : ClockTime) (desiredRoll : Int32) :
    Prop where
  refused : ((work.workNtimeRange earliest latest desiredRoll).1 = -1 ∧
    (work.workNtimeRange earliest latest desiredRoll).2 = work) ↔ work.hi earliest < work.lo latest
  kept : work.lo latest ≤ work.hi earliest →
    work.lo latest ≤ (work.workNtimeRange earliest latest desiredRoll).2.ntime.toNat ∧
    ((work.workNtimeRange earliest latest desiredRoll).2.ntime.toNat : ℤ) +
      (work.workNtimeRange earliest latest desiredRoll).1.toInt = work.hi earliest ∧
    min desiredRoll.toInt (work.hi earliest - work.lo latest) ≤
      (work.workNtimeRange earliest latest desiredRoll).1.toInt

/-- The sums are 32-bit numbers. -/
def SumsFit (work : TimedWork) (earliest latest : ClockTime) : Prop :=
  (0 ≤ work.minSum latest ∧ work.minSum latest < 2 ^ 32) ∧
    0 ≤ work.maxSum earliest ∧ work.maxSum earliest < 2 ^ 32

/-- The limits with the sums taken modulo `2 ^ 32`. -/
def wrappedLo (work : TimedWork) (latest : ClockTime) : ℤ :=
  max (work.ntimeRollLimits.min.toNat : ℤ) (work.minSum latest % 2 ^ 32)

def wrappedHi (work : TimedWork) (earliest : ClockTime) : ℤ :=
  min (work.ntimeRollLimits.max.toNat : ℤ) (work.maxSum earliest % 2 ^ 32)

/-- A work of time 0 is given that time again, and the range is all of the 32-bit numbers, whose
size is returned as -1. -/
def WholeRange (work : TimedWork) (earliest latest : ClockTime) : Prop :=
  work.ntime = 0 ∧ work.wrappedLo latest = 0 ∧ work.wrappedHi earliest = 2 ^ 32 - 1 ∧
    work.idealNtime earliest latest = 0

/-! ## The times -/

section
variable {work : TimedWork} {earliest latest : ClockTime}

theorem ntime_setNtime (work : TimedWork) (x : UInt32) : (work.setNtime x).ntime = x := by
  have hlen : (be32 x).length = 4 := rfl
  have htake : (work.data.toList.take 68).length = 68 := by simp
  rw [ntime, setNtime, Bytes.toList_overwrite _ (by omega), writeAt, List.append_assoc,
    List.drop_left' htake, ← hlen, List.take_left, ofBe32_be32]

/-- Only its own time leaves a work as it is. -/
theorem setNtime_eq_iff {x : UInt32} : work.setNtime x = work ↔ x = work.ntime := by
  constructor
  · intro heq
    rw [← ntime_setNtime work x, heq]
  · intro heq
    have hlen : ((work.data.toList.drop 68).take 4).length = 4 := by simp
    have hbe : (be32 x).length = 4 := rfl
    have hdata : work.data.overwrite 68 (be32 x) = work.data := by
      apply Vector.toList_inj.mp
      rw [Bytes.toList_overwrite _ (by omega), heq, ntime, be32_ofBe32 hlen, writeAt, hlen,
        List.append_assoc, ← List.drop_drop, List.take_append_drop, List.take_append_drop]
    rw [setNtime, hdata]

theorem natCast_toNat_minNtime (work : TimedWork) (latest : ClockTime) :
    ((work.minNtime latest).toNat : ℤ) = work.wrappedLo latest := by
  have hsum : work.ntime + (timerElapsed work.ntimeRollLimits.tvRef latest).toUInt32 + 1 +
      work.ntimeRollLimits.minoff.toInt32.toUInt32 = UInt32.ofInt (work.minSum latest) := by
    rw [minSum, UInt32.ofInt_add, UInt32.ofInt_add, UInt32.ofInt_add, UInt32.ofInt_toNat,
      timerElapsed, Int32.toUInt32_ofInt, Int32.toUInt32_eq_ofInt, Int16.toInt_toInt32]
    rfl
  rw [minNtime, hsum, UInt32.toNat_max, Nat.cast_max, UInt32.natCast_toNat_ofInt, wrappedLo]

theorem natCast_toNat_maxNtime (work : TimedWork) (earliest : ClockTime) :
    ((work.maxNtime earliest).toNat : ℤ) = work.wrappedHi earliest := by
  have hsum : work.ntime + (timerElapsed work.ntimeRollLimits.tvRef earliest).toUInt32 +
      work.ntimeRollLimits.maxoff.toInt32.toUInt32 = UInt32.ofInt (work.maxSum earliest) := by
    rw [maxSum, UInt32.ofInt_add, UInt32.ofInt_add, UInt32.ofInt_toNat, timerElapsed,
      Int32.toUInt32_ofInt, Int32.toUInt32_eq_ofInt, Int16.toInt_toInt32]
  rw [maxNtime, hsum, UInt32.toNat_min, Nat.cast_min, UInt32.natCast_toNat_ofInt, wrappedHi]

/-- The time that is set lies in the range, and the desired roll remains where there is room. -/
theorem adjustNtime_spec {minNtime maxNtime : UInt32} (idealNtime : UInt32) {desiredRoll : Int32}
    (hle : minNtime ≤ maxNtime) (hroll : 0 ≤ desiredRoll.toInt) :
    minNtime.toNat ≤ (adjustNtime minNtime maxNtime idealNtime desiredRoll).toNat ∧
      (adjustNtime minNtime maxNtime idealNtime desiredRoll).toNat ≤ maxNtime.toNat ∧
      min desiredRoll.toInt ((maxNtime.toNat : ℤ) - minNtime.toNat) ≤
        maxNtime.toNat - (adjustNtime minNtime maxNtime idealNtime desiredRoll).toNat ∧
      (minNtime = 0 → maxNtime.toNat = 2 ^ 32 - 1 →
        (adjustNtime minNtime maxNtime idealNtime desiredRoll = 0 ↔ idealNtime = 0)) := by
  have hcast := desiredRoll.natCast_toNat_toUInt32
  have hsmall := desiredRoll.toInt_lt
  have hrange : minNtime.toNat ≤ maxNtime.toNat := UInt32.le_iff_toNat_le.mp hle
  have hlt := maxNtime.toNat_lt
  have hsub := UInt32.toNat_sub_of_le maxNtime minNtime hle
  have hgt : maxNtime - minNtime > desiredRoll.toUInt32 ↔
      desiredRoll.toInt < maxNtime.toNat - minNtime.toNat := by
    rw [gt_iff_lt, UInt32.lt_iff_toNat_lt, hsub]
    omega
  have hzero : ∀ x : UInt32, x = 0 ↔ x.toNat = 0 := fun x => UInt32.toNat_inj.symm
  rw [adjustNtime]
  by_cases hroom : maxNtime - minNtime > desiredRoll.toUInt32
  · rw [if_pos hroom]
    rw [hgt] at hroom
    have hroll' : desiredRoll.toUInt32 ≤ maxNtime := UInt32.le_iff_toNat_le.mpr (by omega)
    have hlatest := UInt32.toNat_sub_of_le maxNtime desiredRoll.toUInt32 hroll'
    by_cases hideal : idealNtime > minNtime
    · rw [if_pos hideal]
      rw [gt_iff_lt, UInt32.lt_iff_toNat_lt] at hideal
      simp only [hzero, UInt32.toNat_min, hlatest]
      omega
    · rw [if_neg hideal]
      rw [gt_iff_lt, UInt32.lt_iff_toNat_lt] at hideal
      simp only [hzero]
      omega
  · rw [if_neg hroom]
    rw [hgt] at hroom
    refine ⟨le_rfl, hrange, by omega, ?_⟩
    intro hmin hmax
    have hminZero := (hzero minNtime).mp hmin
    omega

/-- The bounds that the widths of the fields put on the sums. -/
theorem sums_spec (work : TimedWork) (href : work.ntimeRollLimits.tvRef.Le earliest)
    (hle : earliest.Le latest) :
    -(2 ^ 15) < work.minSum latest ∧ -(2 ^ 15) ≤ work.maxSum earliest ∧
      work.maxSum earliest < work.minSum latest + 2 ^ 16 ∧
      (work.minSum latest < 0 → work.maxSum earliest < 2 ^ 16) := by
  have hearliest := ClockTime.elapsed_nonneg href
  have hlatest := work.ntimeRollLimits.tvRef.elapsed_mono hle
  have hminoff := work.ntimeRollLimits.minoff.toInt_lt
  have hminoff' := work.ntimeRollLimits.minoff.le_toInt
  have hmaxoff := work.ntimeRollLimits.maxoff.toInt_lt
  have hmaxoff' := work.ntimeRollLimits.maxoff.le_toInt
  rw [minSum, maxSum]
  omega

/-- Without a sum outside the 32 bits the limits are the ones that are meant. -/
theorem wrapped_of_sumsFit (H : work.SumsFit earliest latest) :
    work.wrappedLo latest = work.lo latest ∧ work.wrappedHi earliest = work.hi earliest := by
  obtain ⟨hmin, hmax⟩ := H
  rw [wrappedLo, wrappedHi, lo, hi, Int.emod_eq_of_lt hmin.1 hmin.2,
    Int.emod_eq_of_lt hmax.1 hmax.2]
  exact ⟨rfl, rfl⟩

/-- A sum outside the 32 bits on a side where the range is not empty makes it seem empty. -/
theorem wrapped_lt_of_not_sumsFit (href : work.ntimeRollLimits.tvRef.Le earliest)
    (hle : earliest.Le latest) (H : ¬ work.SumsFit earliest latest)
    (hrange : work.lo latest ≤ work.hi earliest) :
    work.wrappedHi earliest < work.wrappedLo latest := by
  obtain ⟨hmin, hmax, hnear, hsmall⟩ := sums_spec work href hle
  have hnmin := work.ntimeRollLimits.min.toNat_lt
  have hnmax := work.ntimeRollLimits.max.toNat_lt
  rw [lo, hi] at hrange
  rw [SumsFit] at H
  rw [wrappedHi, wrappedLo]
  omega

/-- Where the call finds no range, and where it does. -/
theorem workNtimeRange_spec (work : TimedWork) (earliest latest : ClockTime) (desiredRoll : Int32) :
    (work.wrappedHi earliest < work.wrappedLo latest ∧
      work.workNtimeRange earliest latest desiredRoll = (-1, work)) ∨
    (work.wrappedLo latest ≤ work.wrappedHi earliest ∧
      work.workNtimeRange earliest latest desiredRoll =
        ((work.maxNtime earliest - adjustNtime (work.minNtime latest) (work.maxNtime earliest)
          (work.idealNtime earliest latest) desiredRoll).toInt32,
        work.setNtime (adjustNtime (work.minNtime latest) (work.maxNtime earliest)
          (work.idealNtime earliest latest) desiredRoll))) := by
  have hmin := natCast_toNat_minNtime work latest
  have hmax := natCast_toNat_maxNtime work earliest
  rw [workNtimeRange]
  by_cases hlt : work.maxNtime earliest < work.minNtime latest
  · left
    rw [UInt32.lt_iff_toNat_lt] at hlt
    exact ⟨by omega, by rw [if_pos (UInt32.lt_iff_toNat_lt.mpr hlt)]⟩
  · right
    rw [UInt32.lt_iff_toNat_lt] at hlt
    exact ⟨by omega, by rw [if_neg (fun h => hlt (UInt32.lt_iff_toNat_lt.mp h))]⟩

/-- An empty range is refused as far as the wrapped sums show it. -/
theorem refused_of_lt (H : work.wrappedHi earliest < work.wrappedLo latest)
    (desiredRoll : Int32) : work.workNtimeRange earliest latest desiredRoll = (-1, work) := by
  rcases workNtimeRange_spec work earliest latest desiredRoll with hspec | hspec
  · exact hspec.2
  · omega

/-- A range that is not empty is refused, or seems so, only when it is the whole of the 32-bit
numbers. -/
theorem refused_iff (H : work.wrappedLo latest ≤ work.wrappedHi earliest) {desiredRoll : Int32}
    (hroll : 0 ≤ desiredRoll.toInt) :
    ((work.workNtimeRange earliest latest desiredRoll).1 = -1 ∧
      (work.workNtimeRange earliest latest desiredRoll).2 = work) ↔
      work.WholeRange earliest latest := by
  have hmin := natCast_toNat_minNtime work latest
  have hmax := natCast_toNat_maxNtime work earliest
  have hle : work.minNtime latest ≤ work.maxNtime earliest := UInt32.le_iff_toNat_le.mpr (by omega)
  obtain ⟨hlower, hupper, -, hzero⟩ :=
    adjustNtime_spec (work.idealNtime earliest latest) hle hroll
  have hmaxlt := (work.maxNtime earliest).toNat_lt
  rcases workNtimeRange_spec work earliest latest desiredRoll with ⟨hlt, -⟩ | ⟨-, hspec⟩
  · omega
  rw [hspec, WholeRange]
  dsimp only
  rw [setNtime_eq_iff]
  generalize adjustNtime _ _ _ _ = ntime at *
  have hsub := UInt32.toNat_sub_of_le _ ntime (UInt32.le_iff_toNat_le.mpr hupper)
  have hone : (work.maxNtime earliest - ntime).toInt32 = -1 ↔
      (work.maxNtime earliest - ntime).toNat = 2 ^ 32 - 1 := by
    rw [← Int32.toInt_inj, UInt32.toInt_toInt32]
    have hlt := (work.maxNtime earliest - ntime).toNat_lt
    have hneg : (-1 : Int32).toInt = -1 := by decide
    rw [hneg]
    generalize (work.maxNtime earliest - ntime).toNat = n at *
    rw [Int.bmod_def]
    omega
  rw [hone, hsub]
  constructor
  · intro H
    have hntime : ntime = 0 := UInt32.toNat_inj.mp (by rw [UInt32.toNat_zero]; omega)
    have hminZero : work.minNtime latest = 0 :=
      UInt32.toNat_inj.mp (by rw [UInt32.toNat_zero]; omega)
    exact ⟨by rw [← H.2, hntime], by rw [← hmin, hminZero]; rfl, by omega,
      (hzero hminZero (by omega)).mp hntime⟩
  · intro ⟨hntime, hlo, hhi, hideal⟩
    have hminZero : work.minNtime latest = 0 :=
      UInt32.toNat_inj.mp (by rw [UInt32.toNat_zero]; omega)
    have hnew : ntime = 0 := (hzero hminZero (by omega)).mpr hideal
    rw [hnew, UInt32.toNat_zero, hntime]
    exact ⟨by omega, rfl⟩

/-- With sums of 32 bits the work is kept in its range. -/
theorem keepsRange_of_sumsFit (href : work.ntimeRollLimits.tvRef.Le earliest)
    (hle : earliest.Le latest) {desiredRoll : Int32} (hroll : 0 ≤ desiredRoll.toInt)
    (H : work.SumsFit earliest latest) : work.KeepsRange earliest latest desiredRoll := by
  obtain ⟨hlo, hhi⟩ := wrapped_of_sumsFit H
  have hmin := natCast_toNat_minNtime work latest
  have hmax := natCast_toNat_maxNtime work earliest
  have hnear := (sums_spec work href hle).2.2.1
  -- so near to each other that what remains is no negative number
  have hwidth : work.hi earliest < work.lo latest + 2 ^ 16 := by
    rw [TimedWork.lo, TimedWork.hi]
    omega
  rcases workNtimeRange_spec work earliest latest desiredRoll with ⟨hlt, hspec⟩ | ⟨hle', hspec⟩
  · rw [hlo, hhi] at hlt
    exact ⟨by rw [hspec]; exact iff_of_true ⟨rfl, rfl⟩ hlt, by intro; omega⟩
  · have hrange : work.minNtime latest ≤ work.maxNtime earliest :=
      UInt32.le_iff_toNat_le.mpr (by omega)
    obtain ⟨hlower, hupper, hdesired, -⟩ :=
      adjustNtime_spec (work.idealNtime earliest latest) hrange hroll
    rw [hlo, hhi] at hle'
    generalize hnew : adjustNtime _ _ _ _ = ntime at *
    have hsub := UInt32.toNat_sub_of_le _ ntime (UInt32.le_iff_toNat_le.mpr hupper)
    have hleft : ((work.workNtimeRange earliest latest desiredRoll).1.toInt : ℤ) =
        work.hi earliest - ntime.toNat := by
      rw [hspec]
      dsimp only
      rw [UInt32.toInt_toInt32_of_lt (by omega), hsub]
      omega
    have htime : (work.workNtimeRange earliest latest desiredRoll).2.ntime = ntime := by
      rw [hspec]
      exact ntime_setNtime work ntime
    have hneg : (-1 : Int32).toInt = -1 := by decide
    constructor
    · apply iff_of_false
      · intro heq
        have hone := congrArg Int32.toInt heq.1
        omega
      · omega
    · intro
      rw [htime, hleft]
      omega

/-- `work_ntime_range` keeps a work in its range exactly when neither sum of a time and its
offsets leaves the 32 bits, or the range is empty and the wrapped sums do not make up another. -/
theorem keepsRange_iff (work : TimedWork) {earliest latest : ClockTime} {desiredRoll : Int32}
    (href : work.ntimeRollLimits.tvRef.Le earliest) (hle : earliest.Le latest)
    (hroll : 0 ≤ desiredRoll.toInt) :
    work.KeepsRange earliest latest desiredRoll ↔
      work.SumsFit earliest latest ∨
        work.hi earliest < work.lo latest ∧
          (work.wrappedHi earliest < work.wrappedLo latest ∨ work.WholeRange earliest latest) := by
  by_cases hfit : work.SumsFit earliest latest
  · exact iff_of_true (keepsRange_of_sumsFit href hle hroll hfit) (Or.inl hfit)
  by_cases hempty : work.hi earliest < work.lo latest
  · -- nothing is asked of an empty range but that it be refused
    have hrefused : work.KeepsRange earliest latest desiredRoll ↔
        ((work.workNtimeRange earliest latest desiredRoll).1 = -1 ∧
          (work.workNtimeRange earliest latest desiredRoll).2 = work) :=
      ⟨fun H => H.refused.mpr hempty, fun H => ⟨iff_of_true H hempty, by omega⟩⟩
    rw [hrefused]
    by_cases hlt : work.wrappedHi earliest < work.wrappedLo latest
    · simp [refused_of_lt hlt, hempty, hlt]
    · simp [refused_iff (not_lt.mp hlt) hroll, hempty, hlt, hfit]
  · have hlt := wrapped_lt_of_not_sumsFit href hle hfit (not_lt.mp hempty)
    apply iff_of_false
    · intro H
      apply hempty
      rw [← H.refused, refused_of_lt hlt]
      exact ⟨rfl, rfl⟩
    · simp [hfit, hempty]

/-- A work of one of the last minutes that 32 bits count, with the limits of a notification. -/
def lateWork : TimedWork :=
  TimedWork.setNtime
    { data := Vector.replicate 128 0
      ntimeRollLimits := RollLimits.setSimple (0 - 61) 60 ⟨0, 0, by decide⟩ } (0 - 61)

theorem keepsRange_lateWork :
    lateWork.KeepsRange ⟨0, 0, by decide⟩ ⟨0, 0, by decide⟩ 10 ↔
      lateWork.SumsFit ⟨0, 0, by decide⟩ ⟨0, 0, by decide⟩ ∨
        lateWork.hi ⟨0, 0, by decide⟩ < lateWork.lo ⟨0, 0, by decide⟩ ∧
          (lateWork.wrappedHi ⟨0, 0, by decide⟩ < lateWork.wrappedLo ⟨0, 0, by decide⟩ ∨
            lateWork.WholeRange ⟨0, 0, by decide⟩ ⟨0, 0, by decide⟩) :=
  keepsRange_iff lateWork (Or.inr ⟨rfl, le_rfl⟩) (Or.inr ⟨rfl, le_rfl⟩) (by decide)

/-- A second after its job came, the sum for the latest time wraps, and the work is refused with
a minute left to roll. -/
theorem not_keepsRange_lateWork :
    ¬ lateWork.KeepsRange ⟨1, 0, by decide⟩ ⟨1, 0, by decide⟩ 10 := by
  intro H
  have hwrapped : lateWork.wrappedHi ⟨1, 0, by decide⟩ < lateWork.wrappedLo ⟨1, 0, by decide⟩ := by
    decide +kernel
  have hroom : ¬ lateWork.hi ⟨1, 0, by decide⟩ < lateWork.lo ⟨1, 0, by decide⟩ := by
    decide +kernel
  apply hroom
  rw [← H.refused, refused_of_lt hwrapped]
  exact ⟨rfl, rfl⟩

end

end TimedWork

end MassGridMiner
