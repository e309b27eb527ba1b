import Dross.Type.ClockDuration

/-!
# Timestamps and time points

A time point of the clock is a count of its ticks. What it becomes and becomes again is
exact where both sides hold it, the floor to a tick on the way back, and the nearer end
of the range where it has to be something.
-/

namespace Dross

open MachineInt

namespace RawTimestamp

/-- `to_time_point()` -/
def toTimePoint (tick : Timestamp.Tick) (t : RawTimestamp) : Option (Option Int) := do
  let here ← t.instant
  let (seconds, subseconds) ← withTheSameSign here.1 here.2
  let ticks ← floorTo 64 subseconds tick.nanoseconds
  inClockDuration tick seconds ticks

/-- `operator std::chrono::system_clock::time_point` -/
def timePoint (tick : Timestamp.Tick) (t : RawTimestamp) : Option Int := do
  let converted ← toTimePoint tick t
  match converted with
  | some tp => some tp
  | none => do
    let here ← t.instant
    some (if here.1 < 0 then minTicks else maxTicks)

end RawTimestamp

namespace Timestamp

section Floor

variable (tick : Tick)

/-- Parts are rounded down as their sum is, where the seconds are whole ticks. -/
theorem ediv_parts (seconds subseconds : Int) :
    (seconds * 1000000000 + subseconds) / tick.nanoseconds =
      seconds * tick.perSecond + subseconds / tick.nanoseconds := by
  have positive : (tick.nanoseconds : Int) ≠ 0 := by
    have := tick.bounds
    omega
  rw [tick.second_eq, ← Int.mul_assoc, Int.add_comm, Int.add_mul_ediv_right _ _ positive,
    Int.add_comm]

theorem ediv_small {rest : Int} (small : -1000000000 < rest ∧ rest < 1000000000) :
    -(tick.perSecond : Int) ≤ rest / tick.nanoseconds ∧
      rest / tick.nanoseconds ≤ tick.perSecond := by
  have positive : (0 : Int) < tick.nanoseconds := by
    have := tick.bounds
    omega
  constructor
  · rw [Int.le_ediv_iff_mul_le positive, Int.neg_mul, ← tick.second_eq]
    exact small.1.le
  · apply Int.le_of_lt
    rw [Int.ediv_lt_iff_lt_mul positive, ← tick.second_eq]
    exact small.2

theorem sameSign_ediv {seconds subseconds : Int} (sign : SameSign seconds subseconds) :
    SameSign seconds (subseconds / tick.nanoseconds) := by
  have positive : (0 : Int) < tick.nanoseconds := by
    have := tick.bounds
    omega
  rcases sign with ⟨first, second⟩ | ⟨first, second⟩
  · exact Or.inl ⟨first, Int.ediv_nonneg second positive.le⟩
  · refine Or.inr ⟨first, ?_⟩
    apply Int.le_of_lt_add_one
    rw [Int.ediv_lt_iff_lt_mul positive]
    omega

theorem floorTo_small {rest : Int} (small : -1000000000 < rest ∧ rest < 1000000000) :
    floorTo 64 rest tick.nanoseconds = some (rest / tick.nanoseconds) := by
  have bounds := ediv_small tick small
  have toward := tdiv_small tick small
  obtain ⟨-, few, positive⟩ := tick.bounds
  apply floorTo_eq (Int.natCast_pos.mpr positive)
  · constructor <;> omega
  · constructor <;> omega
  · constructor <;> omega

end Floor

/-- The last tick that is not after a timestamp. -/
def floorTicks (tick : Tick) (t : Timestamp) : Int := t.exactInstant / tick.nanoseconds

theorem raw_toTimePoint (tick : Tick) (t : Timestamp) :
    t.raw.toTimePoint tick =
      some (if InWidth 64 (floorTicks tick t) then some (floorTicks tick t) else none) := by
  have here := t.instant_bounds
  obtain ⟨whole, rest, moved, sign, sum, small⟩ :=
    @withTheSameSign_eq t.instant.1 (t.instant.2 : Int) (by omega) (by omega)
  have ticks := floorTo_small tick small
  have exact_ : floorTicks tick t = whole * tick.perSecond + rest / tick.nanoseconds := by
    rw [← ediv_parts tick, sum, floorTicks, exactInstant]
  unfold RawTimestamp.toTimePoint
  rw [t.raw_instant]
  simp only [Option.bind_eq_bind, Option.bind_some, moved, ticks]
  rw [inClockDuration_eq tick (sameSign_ediv tick sign) (ediv_small tick small), exact_]

/-- Below zero the seconds are below zero, also of a part of one. -/
theorem instant_neg {tick : Tick} {t : Timestamp} : t.instant.1 < 0 ↔ floorTicks tick t < 0 := by
  have here := t.instant_bounds
  have positive : (0 : Int) < tick.nanoseconds := by
    have := tick.bounds
    omega
  rw [floorTicks, exactInstant, Int.ediv_lt_iff_lt_mul positive, Int.zero_mul]
  omega

theorem raw_timePoint (tick : Tick) (t : Timestamp) :
    t.raw.timePoint tick = some (if InWidth 64 (floorTicks tick t) then floorTicks tick t
      else if floorTicks tick t < 0 then minTicks else maxTicks) := by
  unfold RawTimestamp.timePoint
  rw [raw_toTimePoint, Option.bind_eq_bind, Option.bind_some]
  by_cases fits : InWidth 64 (floorTicks tick t)
  · rw [if_pos fits, if_pos fits]
  · rw [if_neg fits, if_neg fits, raw_instant]
    exact congrArg some (if_congr instant_neg rfl rfl)

theorem floorTicks_mono (tick : Tick) {t u : Timestamp} (le : t.exactInstant ≤ u.exactInstant) :
    floorTicks tick t ≤ floorTicks tick u :=
  Int.ediv_le_ediv (Int.natCast_pos.mpr tick.bounds.2.2) le

/-! ## From a time point -/

section FromTimePoint

variable (tick : Tick) {tp : Int}

/-- What is borrowed makes the seconds those rounded down. -/
theorem sinceEpoch_floor (tp : Int) : (sinceEpoch tick tp).1 = tp / tick.perSecond := by
  obtain ⟨split, nonneg, below⟩ := sinceEpoch_spec tick tp
  have positive : (tick.perSecond : Int) ≠ 0 := by omega
  generalize sinceEpoch tick tp = since at *
  rw [← split, Int.add_comm, Int.add_mul_ediv_right _ _ positive, Int.ediv_eq_zero_of_lt nonneg below]
  omega

theorem setLocal_exactInstant {t : Timestamp} {seconds : Int} {fraction : Nat}
    (utc : t.timezone = Timezone.utc) (inRange : firstSecond ≤ seconds ∧ seconds < endSecond)
    (below : fraction < nanosecondsPerSecond) :
    (t.setLocal seconds fraction inRange below).exactInstant = seconds * 1000000000 + fraction := by
  have zone : (t.setLocal seconds fraction inRange below).timezone = Timezone.utc := utc
  rw [exactInstant, instant, setLocal_localSeconds, setLocal_subseconds, zone, Timezone.utc,
    Int.zero_mul, Int.sub_zero]

/-- A time point that becomes a timestamp is the instant of it. -/
theorem fromTimePoint_exact {t : Timestamp} (made : fromTimePoint tick tp = some t) :
    t.exactInstant = tp * tick.nanoseconds := by
  obtain ⟨split, nonneg, -⟩ := sinceEpoch_spec tick tp
  unfold fromTimePoint at made
  split at made
  · cases made
    rw [setLocal_exactInstant rfl, tick.second_eq, Nat.cast_mul, Int.toNat_of_nonneg nonneg,
      ← Int.mul_assoc, ← Int.add_mul, split]
  · cases made

theorem fromTimePoint_isSome (tp : Int) : (fromTimePoint tick tp).isSome ↔
    firstSecond ≤ tp / tick.perSecond ∧ tp / tick.perSecond < endSecond := by
  rw [fromTimePoint, ← sinceEpoch_floor]
  split <;> simp_all

theorem toTimePoint_fromTimePoint {t : Timestamp} (long : InWidth 64 tp)
    (made : fromTimePoint tick tp = some t) : t.raw.toTimePoint tick = some (some tp) := by
  have positive : (tick.nanoseconds : Int) ≠ 0 := by
    have := tick.bounds
    omega
  have floor : floorTicks tick t = tp := by
    rw [floorTicks, fromTimePoint_exact tick made, Int.mul_ediv_cancel _ positive]
  rw [raw_toTimePoint, floor, if_pos long]

/-- A time point outside the range of the timestamps becomes the nearer end of it. -/
theorem ofTimePoint_exact (tp : Int) : (ofTimePoint tick tp).exactInstant =
    max (firstSecond * 1000000000) (min (tp * tick.nanoseconds) (endSecond * 1000000000 - 1)) := by
  have positive : (0 : Int) < tick.perSecond := Int.natCast_pos.mpr tick.perSecond_pos
  have tickPositive : (1 : Int) ≤ tick.nanoseconds := Int.natCast_pos.mpr tick.bounds.2.2
  have scaled (seconds : Int) :
      seconds * 1000000000 = seconds * tick.perSecond * tick.nanoseconds := by
    rw [tick.second_eq, Int.mul_assoc]
  have low : firstSecond ≤ tp / tick.perSecond →
      firstSecond * 1000000000 ≤ tp * tick.nanoseconds := by
    intro inside
    rw [Int.le_ediv_iff_mul_le positive] at inside
    rw [scaled]
    exact Int.mul_le_mul_of_nonneg_right inside (by omega)
  have below {end_ : Int} : tp / tick.perSecond < end_ →
      tp * tick.nanoseconds ≤ end_ * 1000000000 - 1 := by
    intro inside
    rw [Int.ediv_lt_iff_lt_mul positive] at inside
    have step := Int.mul_le_mul_of_nonneg_right (show tp + 1 ≤ end_ * tick.perSecond by omega)
      (show (0 : Int) ≤ tick.nanoseconds by omega)
    rw [Int.add_mul, Int.one_mul] at step
    rw [scaled]
    omega
  have range : firstSecond * 1000000000 ≤ endSecond * 1000000000 - 1 := by decide
  have some := fromTimePoint_isSome tick tp
  unfold ofTimePoint
  rcases made : fromTimePoint tick tp with _ | t
  · rw [made] at some
    simp only [Option.isSome_none, Bool.false_eq_true, false_iff] at some
    by_cases before : tp / tick.perSecond < firstSecond
    · have less := below before
      simp only [if_pos before]
      rw [setLocal_exactInstant rfl, max_eq_left ((min_le_left _ _).trans (by omega))]
      rfl
    · have inside := Int.not_lt.mp before
      have after : endSecond * 1000000000 ≤ tp * tick.nanoseconds := by
        have past : endSecond ≤ tp / tick.perSecond := by
          by_contra less
          exact some ⟨inside, Int.not_le.mp less⟩
        rw [Int.le_ediv_iff_mul_le positive] at past
        rw [scaled]
        exact Int.mul_le_mul_of_nonneg_right past (by omega)
      simp only [if_neg before]
      rw [setLocal_exactInstant rfl, min_eq_right (by omega), max_eq_right range]
      rfl
  · rw [made] at some
    obtain ⟨first, last⟩ := some.mp rfl
    rw [fromTimePoint_exact tick made, min_eq_left (below last), max_eq_right (low first)]

end FromTimePoint

theorem timePoint_clamped (tick : Tick) (t : Timestamp) :
    t.raw.timePoint tick = some (max minTicks (min (floorTicks tick t) maxTicks)) := by
  rw [raw_timePoint]
  by_cases fits : InWidth 64 (floorTicks tick t)
  · rw [if_pos fits]
    unfold InWidth at fits
    unfold minTicks maxTicks
    congr 1
    omega
  · rw [if_neg fits]
    unfold InWidth at fits
    unfold minTicks maxTicks
    congr 1
    split
    · omega
    · omega

/-- Time points become timestamps where these hold them, and come back as they were. A
timestamp becomes the tick it is in where the clock holds that. Where either has to become
something it is the same, or else the nearer end, so no order is turned round, and nothing
overflows. -/
theorem timePoints_exact (tick : Tick) :
    (∀ tp, InWidth 64 tp → ∃ converted, RawTimestamp.fromTimePoint tick tp = some converted ∧
      (converted.isSome ↔ 0 ≤ yearAt (tp / tick.perSecond) ∧ yearAt (tp / tick.perSecond) ≤ 9999) ∧
      ∀ t ∈ converted, t.toTimePoint tick = some (some tp)) ∧
    (∀ t : Timestamp, ∃ converted, t.raw.toTimePoint tick = some converted ∧
      (converted.isSome ↔ InWidth 64 (t.exactInstant / tick.nanoseconds)) ∧
      ∀ tp ∈ converted, tp = t.exactInstant / tick.nanoseconds) ∧
    (∀ tp, InWidth 64 tp → ∃ t : Timestamp, RawTimestamp.ofTimePoint tick tp = some t.raw ∧
      t.exactInstant = max (firstSecond * 1000000000)
        (min (tp * tick.nanoseconds) (endSecond * 1000000000 - 1)) ∧
      ∀ converted, RawTimestamp.fromTimePoint tick tp = some (some converted) →
        t.raw = converted) ∧
    (∀ t : Timestamp, t.raw.timePoint tick =
      some (max minTicks (min (t.exactInstant / tick.nanoseconds) maxTicks))) ∧
    (∀ tp tq, InWidth 64 tp → InWidth 64 tq → tp ≤ tq → ∃ t u order,
      RawTimestamp.ofTimePoint tick tp = some t ∧ RawTimestamp.ofTimePoint tick tq = some u ∧
        t.compare u = some order ∧ order ≠ .gt) ∧
    ∀ t u : Timestamp, t.raw.compare u.raw ≠ some .gt → ∃ tp tq,
      t.raw.timePoint tick = some tp ∧ u.raw.timePoint tick = some tq ∧ tp ≤ tq := by
  refine ⟨?_, ?_, ?_, timePoint_clamped tick, ?_, ?_⟩
  · intro tp long
    refine ⟨_, raw_fromTimePoint tick long, ?_, ?_⟩
    · rw [Option.isSome_map, fromTimePoint_isSome, yearAt_range]
    · intro t mem
      obtain ⟨u, made, rfl⟩ := Option.mem_map.mp mem
      exact toTimePoint_fromTimePoint tick long made
  · intro t
    refine ⟨_, raw_toTimePoint tick t, ?_, ?_⟩
    · rw [floorTicks]
      split <;> simp_all
    · intro tp mem
      by_cases fits : InWidth 64 (floorTicks tick t)
      · rw [if_pos fits] at mem
        exact (Option.some.inj mem).symm
      · rw [if_neg fits] at mem
        cases mem
  · intro tp long
    refine ⟨_, raw_ofTimePoint tick long, ofTimePoint_exact tick tp, fun converted known => ?_⟩
    rw [raw_fromTimePoint tick long, Option.some.injEq] at known
    obtain ⟨t, made, rfl⟩ := Option.mem_map.mp known
    rw [ofTimePoint, made]
  · intro tp tq long long' le
    refine ⟨_, _, _, raw_ofTimePoint tick long, raw_ofTimePoint tick long', raw_compare _ _, ?_⟩
    rw [ne_eq, compare_gt_iff_gt, not_lt, ofTimePoint_exact, ofTimePoint_exact]
    have scaled := Int.mul_le_mul_of_nonneg_right le (Int.natCast_nonneg tick.nanoseconds)
    exact max_le_max le_rfl (min_le_min scaled le_rfl)
  · intro t u order
    rw [raw_compare, ne_eq, Option.some.injEq, compare_gt_iff_gt, not_lt] at order
    refine ⟨_, _, timePoint_clamped tick t, timePoint_clamped tick u, ?_⟩
    exact max_le_max le_rfl (min_le_min (floorTicks_mono tick order) le_rfl)

end Timestamp

end Dross
