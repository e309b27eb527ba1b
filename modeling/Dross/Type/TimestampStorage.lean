import Dross.Library.MachineInt
import Dross.Type.Timestamp

/-!
# Timestamps on the machine

The parts of a timestamp as the source declares them, with nothing said of their range, and
its functions with every operation on a machine integer checked. A function without a result
has overflowed.
-/

namespace Dross

open MachineInt

/-- The local date, the nanoseconds since midnight and the offset. -/
structure RawTimestamp where
  year : Int
  month : Int
  day : Int
  sinceMidnight : Int
  timezone : Timezone
deriving DecidableEq

/-- `std::chrono::seconds::max()` -/
def maxSeconds : Int := 9223372036854775807

/-- `std::chrono::floor`, to a unit of so many of the one before: the cast goes toward zero. -/
def floorTo (bits : Nat) (count unit : Int) : Option Int := do
  let whole ← checked bits (count.tdiv unit)
  let back ← checked 64 (whole * unit)
  if back > count then checked bits (whole - 1) else some whole

/-- `in_seconds`, for a duration of so many seconds a count -/
def inSeconds (unit count : Int) : Option (Option Int) :=
  if count > maxSeconds.tdiv unit ∨ count < Timestamp.minSeconds.tdiv unit then some none
  else (checked 64 (count * unit)).map some

namespace RawTimestamp

/-- `timestamp()` -/
def epoch : RawTimestamp := ⟨1970, 1, 1, 0, Timezone.utc⟩

/-- `local_seconds()`, from `sys_days` of the date -/
def localSeconds (t : RawTimestamp) : Option Int := do
  let days ← checked 32
    (Calendar.dayNumber t.year.toNat t.month.toNat t.day.toNat - Timestamp.epochDays)
  let midnight ← checked 64 (days * 86400)
  let time ← floorTo 64 t.sinceMidnight nanosecondsPerSecond
  checked 64 (midnight + time)

def subseconds (t : RawTimestamp) : Option Int := do
  let whole ← floorTo 64 t.sinceMidnight nanosecondsPerSecond
  let back ← checked 64 (whole * nanosecondsPerSecond)
  checked 64 (t.sinceMidnight - back)

def instant (t : RawTimestamp) : Option (Int × Int) := do
  let here ← t.localSeconds
  let offset ← checked 64 (t.timezone.offsetMinutes * 60)
  let seconds ← checked 64 (here - offset)
  let fraction ← t.subseconds
  some (seconds, fraction)

/-- `year_month_day` of a day after the epoch -/
def dateAt (days : Int) : Nat × Nat × Nat :=
  Calendar.dateOf (days + Timestamp.epochDays).toNat

/-- `set_local`, whose year has 16 bits -/
def setLocal (t : RawTimestamp) (seconds fraction : Int) : Option RawTimestamp := do
  let days ← floorTo 32 seconds 86400
  let year ← checked 16 (dateAt days).1
  let midnight ← checked 64 (days * 86400)
  let time ← checked 64 (seconds - midnight)
  let nanoseconds ← checked 64 (time * nanosecondsPerSecond)
  let sinceMidnight ← checked 64 (nanoseconds + fraction)
  some ⟨year, (dateAt days).2.1, (dateAt days).2.2, sinceMidnight, t.timezone⟩

/-! ## Construction -/

def fromComponents (year month day hour minute second : Int) (tz : Timezone) :
    Option (Option RawTimestamp) :=
  if year < 0 ∨ year > 9999 ∨ month < 1 ∨ month > 12 ∨ day < 1 ∨ day > 31 then some none
  else if hour < 0 ∨ hour > 23 ∨ minute < 0 ∨ minute > 59 ∨ second < 0 ∨ second > 59 then some none
  else do
    let shortYear ← checked 16 year
    if Calendar.Exists shortYear.toNat month.toNat day.toNat then
      let hours ← checked 64 (hour * 60)
      let minutes ← checked 64 (hours + minute)
      let whole ← checked 64 (minutes * 60)
      let seconds ← checked 64 (whole + second)
      let sinceMidnight ← checked 64 (seconds * nanosecondsPerSecond)
      some (some ⟨shortYear, month, day, sinceMidnight, tz⟩)
    else some none

/-- `timestamp(year, month, day, hour, minute, second, tz)` -/
def ofComponents (year month day hour minute second : Int) (tz : Timezone) : Option RawTimestamp :=
  (fromComponents year month day hour minute second tz).map (fun t => t.getD epoch)

/-- The end of `from_string`, where the fraction is added to what is known of the time. -/
def addFraction (result : Option RawTimestamp) (fraction : Option Text) :
    Option (Option RawTimestamp) :=
  match result, fraction with
  | some t, some digits => do
    let sinceMidnight ← checked 64 (t.sinceMidnight + Timestamp.fractionNanoseconds digits)
    some (some { t with sinceMidnight := sinceMidnight })
  | result, _ => some result

theorem addFraction_some (t : RawTimestamp) (digits : Text) :
    addFraction (some t) (some digits) =
      (checked 64 (t.sinceMidnight + Timestamp.fractionNanoseconds digits)).bind
        (fun sinceMidnight => some (some { t with sinceMidnight := sinceMidnight })) := rfl

def fromString (s : Text) : Option (Option RawTimestamp) :=
  match Timestamp.takeThree 4 '-' s with
  | none => some none
  | some ((year, month, day), s) =>
    if s = [] then fromComponents year month day 0 0 0 Timezone.utc
    else
      match (do
        let s ← takeChar 'T' s
        let (time, s) ← Timestamp.takeThree 2 ':' s
        let (fraction, s) ← Timestamp.takeFraction s
        let tz ← Timestamp.takeZone s
        some (time, fraction, tz)) with
      | none => some none
      | some ((hour, minute, second), fraction, tz) => do
        let result ← fromComponents year month day hour minute second tz
        addFraction result fraction

/-- `timestamp(iso8601_str)` -/
def ofString (s : Text) : Option RawTimestamp := (fromString s).map (fun t => t.getD epoch)

/-- The seconds of a time point and the ticks after them. -/
def sinceEpoch (tick : Timestamp.Tick) (tp : Int) : Option (Int × Int) := do
  let whole ← checked 64 (tp.tdiv tick.perSecond)
  let back ← checked 64 (whole * tick.perSecond)
  let fraction ← checked 64 (tp - back)
  if fraction < 0 then
    let whole ← checked 64 (whole - 1)
    let fraction ← checked 64 (fraction + tick.perSecond)
    some (whole, fraction)
  else some (whole, fraction)

def fromTimePoint (tick : Timestamp.Tick) (tp : Int) : Option (Option RawTimestamp) := do
  let since ← sinceEpoch tick tp
  if since.1 < Timestamp.firstSecond ∨ since.1 ≥ Timestamp.endSecond then some none
  else
    let nanoseconds ← checked 64 (since.2 * tick.nanoseconds)
    (epoch.setLocal since.1 nanoseconds).map some

/-- The end of the range on the side of a time point outside it. -/
def nearerEnd (tick : Timestamp.Tick) (tp : Int) : Option RawTimestamp := do
  let seconds ← floorTo 64 tp tick.perSecond
  if seconds < Timestamp.firstSecond then epoch.setLocal Timestamp.firstSecond 0
  else epoch.setLocal (Timestamp.endSecond - 1) 999999999

/-- `timestamp(tp)` -/
def ofTimePoint (tick : Timestamp.Tick) (tp : Int) : Option RawTimestamp := do
  let converted ← fromTimePoint tick tp
  match converted with
  | some t => some t
  | none => nearerEnd tick tp

/-! ## Arithmetic -/

def add (t : RawTimestamp) (duration : Int) : Option (Option RawTimestamp) := do
  let here ← t.localSeconds
  let first ← checked 64 (Timestamp.firstSecond - here)
  let last ← checked 64 (Timestamp.endSecond - here)
  if duration < first ∨ duration ≥ last then some none
  else
    let seconds ← checked 64 (here + duration)
    let fraction ← t.subseconds
    (t.setLocal seconds fraction).map some

def subtract (t : RawTimestamp) (duration : Int) : Option (Option RawTimestamp) :=
  if duration = Timestamp.minSeconds then some none
  else do
    let negated ← checked 64 (-duration)
    t.add negated

/-- `value_or_throw`, which throws `std::out_of_range` -/
def valueOrThrow (result : Option RawTimestamp) : Except String RawTimestamp :=
  match result with
  | none => .error "timestamp arithmetic leaves the years 0 to 9999"
  | some t => .ok t

/-- `operator+`, for a duration of so many seconds a count -/
def plus (t : RawTimestamp) (unit count : Int) : Option (Except String RawTimestamp) := do
  match ← inSeconds unit count with
  | none => some (valueOrThrow none)
  | some seconds => (t.add seconds).map valueOrThrow

/-- `operator-` -/
def minus (t : RawTimestamp) (unit count : Int) : Option (Except String RawTimestamp) := do
  match ← inSeconds unit count with
  | none => some (valueOrThrow none)
  | some seconds => (t.subtract seconds).map valueOrThrow

/-- `operator+(std::chrono::minutes)` -/
def plusMinutes (t : RawTimestamp) (count : Int) : Option (Except String RawTimestamp) :=
  t.plus 60 count

def minusMinutes (t : RawTimestamp) (count : Int) : Option (Except String RawTimestamp) :=
  t.minus 60 count

/-- `operator+(std::chrono::hours)` -/
def plusHours (t : RawTimestamp) (count : Int) : Option (Except String RawTimestamp) :=
  t.plus 3600 count

def minusHours (t : RawTimestamp) (count : Int) : Option (Except String RawTimestamp) :=
  t.minus 3600 count

/-- `operator+(std::chrono::seconds)` -/
def plusSeconds (t : RawTimestamp) (duration : Int) : Option (Except String RawTimestamp) :=
  (t.add duration).map valueOrThrow

def minusSeconds (t : RawTimestamp) (duration : Int) : Option (Except String RawTimestamp) :=
  (t.subtract duration).map valueOrThrow

/-! ## Without overflow -/

/-- What holds of every timestamp. -/
structure Valid (t : RawTimestamp) : Prop where
  year : 0 ≤ t.year ∧ t.year ≤ 9999
  date : Calendar.Exists t.year.toNat t.month.toNat t.day.toNat
  time : 0 ≤ t.sinceMidnight ∧ t.sinceMidnight < nanosecondsPerDay
  offset : -maxOffset ≤ t.timezone.offsetMinutes ∧ t.timezone.offsetMinutes ≤ maxOffset

end RawTimestamp

/-- The parts of a timestamp. -/
def Timestamp.raw (t : Timestamp) : RawTimestamp :=
  ⟨t.date.year, t.date.month, t.date.day, t.sinceMidnight, t.timezone⟩

namespace Timestamp

theorem raw_valid (t : Timestamp) : t.raw.Valid := by
  obtain ⟨year, exists_⟩ := t.date.ok
  have time := t.withinDay
  constructor
  · exact ⟨Int.natCast_nonneg _, by simpa [raw] using year⟩
  · simpa [raw] using exists_
  · exact ⟨Int.natCast_nonneg _, by simpa [raw] using time⟩
  · exact t.timezone.inRange

theorem raw_epoch : epoch.raw = RawTimestamp.epoch := rfl

theorem checked_long {x : Int} (low : -9223372036854775808 ≤ x) (high : x ≤ 9223372036854775807) :
    checked 64 x = some x := by
  apply checked_eq
  constructor <;> omega

theorem inWidth_small {x : Int} (low : -2 ^ 47 ≤ x) (high : x ≤ 2 ^ 47) : InWidth 64 x := by
  constructor <;> omega

theorem floorTo_nonneg {bits count unit : Nat} (positive : 0 < unit)
    (fits : InWidth 64 (count : Int))
    (fits' : InWidth bits ((count / unit : Nat) : Int)) :
    floorTo bits count unit = some ((count / unit : Nat) : Int) := by
  have whole : (count : Int).tdiv unit = ((count / unit : Nat) : Int) := by
    rw [Int.tdiv_eq_ediv_of_nonneg (Int.natCast_nonneg _), Int.natCast_div]
  have le : count / unit * unit ≤ count := Nat.div_mul_le_self _ _
  have back : InWidth 64 (((count / unit : Nat) : Int) * unit) := by
    have zero : InWidth 64 0 := by decide
    exact zero.of_between fits (by positivity) (by exact_mod_cast le)
  unfold floorTo
  rw [whole, checked_eq fits', Option.bind_eq_bind, Option.bind_some, checked_eq back,
    Option.bind_some, if_neg]
  rw [not_lt]
  exact_mod_cast le

theorem time_floor (t : Timestamp) : floorTo 64 t.raw.sinceMidnight nanosecondsPerSecond =
    some ((t.sinceMidnight / nanosecondsPerSecond : Nat) : Int) := by
  have within := t.withinDay
  unfold nanosecondsPerDay at within
  apply floorTo_nonneg (by decide)
  · apply inWidth_small <;> unfold nanosecondsPerSecond at * <;> omega
  · apply inWidth_small <;> unfold nanosecondsPerSecond at * <;> omega

/-- The days of a date before and after the epoch. -/
theorem day_bounds (t : Timestamp) :
    0 ≤ (Calendar.dayNumber t.date.year t.date.month t.date.day : Int) ∧
      (Calendar.dayNumber t.date.year t.date.month t.date.day : Int) < 3652425 := by
  have bounds := t.date.ok.2.dayNumber_bounds
  have later := Calendar.daysBeforeYear_mono (Nat.succ_le_succ t.date.ok.1)
  have last : Calendar.daysBeforeYear 10000 = 3652425 := rfl
  change Calendar.daysBeforeYear (t.date.year + 1) ≤ Calendar.daysBeforeYear 10000 at later
  omega

theorem localSeconds_bounds (t : Timestamp) :
    firstSecond ≤ t.localSeconds ∧ t.localSeconds < endSecond := by
  have days := t.day_bounds
  have within := t.withinDay
  unfold localSeconds firstSecond endSecond epochDays nanosecondsPerDay nanosecondsPerSecond at *
  omega

theorem raw_localSeconds (t : Timestamp) : t.raw.localSeconds = some t.localSeconds := by
  have days := t.day_bounds
  have bounds := t.localSeconds_bounds
  have narrow : InWidth 32
      (Calendar.dayNumber t.date.year t.date.month t.date.day - epochDays : Int) := by
    unfold epochDays
    constructor <;> omega
  unfold RawTimestamp.localSeconds
  rw [t.time_floor]
  simp only [raw, Int.toNat_natCast, Option.bind_eq_bind]
  rw [checked_eq narrow, Option.bind_some, checked_long, Option.bind_some, Option.bind_some]
  · rw [Int.natCast_div]
    unfold localSeconds firstSecond endSecond at bounds
    exact checked_long (by omega) (by omega)
  · unfold epochDays
    omega
  · unfold epochDays
    omega

theorem nanoseconds_eq : nanosecondsPerSecond = 1000000000 := rfl

theorem nanoseconds_cast : (nanosecondsPerSecond : Int) = 1000000000 := by
  rw [nanoseconds_eq]
  rfl

/-- The whole seconds of a time of day and what is left. -/
theorem time_split (t : Timestamp) : (t.sinceMidnight : Int) =
      ((t.sinceMidnight / nanosecondsPerSecond : Nat) : Int) * 1000000000 + t.subseconds ∧
    (t.subseconds : Int) < 1000000000 ∧ (t.sinceMidnight : Int) < 86400000000000 := by
  refine ⟨?_, ?_, ?_⟩
  · rw [subseconds, nanoseconds_eq]
    omega
  · rw [subseconds, nanoseconds_eq]
    omega
  · have within := t.withinDay
    rw [nanosecondsPerDay, nanoseconds_eq] at within
    omega

theorem raw_sinceMidnight (t : Timestamp) : t.raw.sinceMidnight = (t.sinceMidnight : Int) := rfl

theorem raw_subseconds (t : Timestamp) : t.raw.subseconds = some (t.subseconds : Int) := by
  obtain ⟨split, small, within⟩ := t.time_split
  unfold RawTimestamp.subseconds
  rw [t.time_floor, raw_sinceMidnight, nanoseconds_cast, Option.bind_eq_bind, Option.bind_some]
  generalize ((t.sinceMidnight / nanosecondsPerSecond : Nat) : Int) = whole at *
  rw [checked_long (by omega) (by omega), Option.bind_some, checked_long (by omega) (by omega)]
  congr 1
  omega

theorem raw_instant (t : Timestamp) :
    t.raw.instant = some (t.instant.1, (t.instant.2 : Int)) := by
  have bounds := t.localSeconds_bounds
  have range := t.timezone.inRange
  have zone : t.raw.timezone = t.timezone := rfl
  unfold RawTimestamp.instant instant
  rw [raw_localSeconds, raw_subseconds, zone]
  unfold firstSecond endSecond maxOffset at *
  simp only [Option.bind_eq_bind, Option.bind_some]
  rw [checked_long (by omega) (by omega), Option.bind_some, checked_long (by omega) (by omega),
    Option.bind_some]

/-- Toward zero, or the next one where that is above. -/
theorem tdiv_cases (x : Int) {y : Int} (positive : 0 < y) :
    x.tdiv y = x / y ∧ x / y * y ≤ x ∨ x.tdiv y = x / y + 1 ∧ x < (x / y + 1) * y := by
  have low := Int.ediv_mul_le x positive.ne'
  have high := Int.lt_ediv_add_one_mul_self x positive
  rw [Int.tdiv_eq_ediv, Int.sign_eq_one_of_pos positive]
  split
  · exact Or.inl ⟨Int.add_zero _, low⟩
  · exact Or.inr ⟨rfl, high⟩

/-- `std::chrono::floor` rounds down, whatever the sign. -/
theorem floorTo_eq {bits : Nat} {count unit : Int} (positive : 0 < unit) (fits : InWidth 64 count)
    (narrow : InWidth bits (count / unit)) (narrow' : InWidth bits (count.tdiv unit)) :
    floorTo bits count unit = some (count / unit) := by
  have back := fits.tdiv_mul (by decide) unit
  unfold floorTo
  rw [checked_eq narrow', Option.bind_eq_bind, Option.bind_some, checked_eq back, Option.bind_some]
  rcases tdiv_cases count positive with ⟨same, below⟩ | ⟨next, above⟩
  · rw [same, if_neg (not_lt.mpr below)]
  · rw [next, if_pos above, Int.add_sub_cancel, checked_eq narrow]

theorem time_of_day (seconds : Int) (fraction : Nat) :
    (seconds - seconds / 86400 * 86400) * 1000000000 + fraction =
      (((seconds % 86400).toNat * nanosecondsPerSecond + fraction : Nat) : Int) := by
  rw [nanoseconds_eq]
  omega

theorem raw_setLocal (t : Timestamp) {seconds : Int} {fraction : Nat}
    (inRange : firstSecond ≤ seconds ∧ seconds < endSecond)
    (below : fraction < nanosecondsPerSecond) :
    t.raw.setLocal seconds fraction = some (t.setLocal seconds fraction inRange below).raw := by
  have bounds := inRange
  unfold firstSecond endSecond at bounds
  have days : floorTo 32 seconds 86400 = some (seconds / 86400) := by
    have cases' := tdiv_cases seconds (y := 86400) (by decide)
    apply floorTo_eq (by decide) <;> constructor <;> omega
  have year : (RawTimestamp.dateAt (seconds / 86400)).1 ≤ 9999 := (local_date_exists inRange).1
  have split := Int.mul_ediv_add_emod seconds 86400
  have small : (fraction : Int) < 1000000000 := by
    rw [← nanoseconds_cast]
    exact Int.ofNat_lt.mpr below
  unfold RawTimestamp.setLocal
  rw [days, nanoseconds_cast, Option.bind_eq_bind, Option.bind_some,
    checked_eq (by constructor <;> omega), Option.bind_some,
    checked_long (by omega) (by omega), Option.bind_some,
    checked_long (by omega) (by omega), Option.bind_some,
    checked_long (by omega) (by omega), Option.bind_some,
    checked_long (by omega) (by omega), Option.bind_some, time_of_day]
  rfl

theorem raw_add (t : Timestamp) (duration : Int) :
    t.raw.add duration = some ((t.add duration).map raw) := by
  have bounds := t.localSeconds_bounds
  have small := t.subseconds_lt
  unfold RawTimestamp.add add
  rw [raw_localSeconds, raw_subseconds]
  simp only [Option.bind_eq_bind, Option.bind_some]
  unfold firstSecond endSecond at bounds
  rw [checked_long (by unfold firstSecond; omega) (by unfold firstSecond; omega), Option.bind_some,
    checked_long (by unfold endSecond; omega) (by unfold endSecond; omega), Option.bind_some]
  split
  · rfl
  · rename_i inside
    rw [checked_long (by unfold firstSecond at inside; omega) (by unfold endSecond at inside; omega),
      Option.bind_some, raw_setLocal]
    rfl

theorem raw_subtract (t : Timestamp) (duration : Int) (long : InWidth 64 duration) :
    t.raw.subtract duration = some ((t.subtract duration).map raw) := by
  unfold RawTimestamp.subtract subtract
  split
  · rfl
  · rename_i above
    obtain ⟨low, high⟩ := long
    unfold minSeconds at above
    rw [checked_long (by omega) (by omega), Option.bind_eq_bind, Option.bind_some, raw_add]

/-- Parts that agree one by one. -/
theorem raw_parts {year month day sinceMidnight : Int} {t : Timestamp} {tz : Timezone}
    (y : year = t.date.year) (m : month = t.date.month) (d : day = t.date.day)
    (s : sinceMidnight = t.sinceMidnight) (z : tz = t.timezone) :
    (⟨year, month, day, sinceMidnight, tz⟩ : RawTimestamp) = t.raw := by
  rw [y, m, d, s, z]
  rfl

theorem raw_fromComponents (year month day hour minute second : Int) (tz : Timezone) :
    RawTimestamp.fromComponents year month day hour minute second tz =
      some ((fromComponents year month day hour minute second tz).map raw) := by
  unfold RawTimestamp.fromComponents fromComponents
  split
  · rfl
  split
  · rfl
  rename_i date time
  push Not at date time
  rw [checked_eq (by constructor <;> omega), Option.bind_eq_bind, Option.bind_some]
  split
  · rename_i ok
    rw [nanoseconds_cast, checked_long (by omega) (by omega), Option.bind_some,
      checked_long (by omega) (by omega), Option.bind_some,
      checked_long (by omega) (by omega), Option.bind_some,
      checked_long (by omega) (by omega), Option.bind_some,
      checked_long (by omega) (by omega), Option.bind_some, Option.map_some]
    congr 2
    apply raw_parts
    · exact (Int.toNat_of_nonneg date.1).symm
    · exact (Int.toNat_of_nonneg (by omega)).symm
    · exact (Int.toNat_of_nonneg (by omega)).symm
    · rw [Int.natCast_mul, nanoseconds_cast]
      omega
    · rfl
  · rfl

theorem takeFraction_digits {s rest digits : Text}
    (h : takeFraction s = some (some digits, rest)) : AllDigits digits := by
  unfold takeFraction at h
  split at h
  · cases h
  · split at h
    · cases h
    · cases h
      intro c hc
      exact List.mem_takeWhile_imp hc

/-- The first nine digits of a fraction, filled up with zeros. -/
theorem filled_digits {digits : Text} (h : AllDigits digits) :
    AllDigits (digits.take 9 ++ List.replicate (9 - (digits.take 9).length) (ch '0')) ∧
      (digits.take 9 ++ List.replicate (9 - (digits.take 9).length) (ch '0')).length = 9 := by
  constructor
  · exact AllDigits.append.mpr
      ⟨AllDigits.of_subset (fun c mem => List.mem_of_mem_take mem) h, AllDigits.replicate _⟩
  · rw [List.length_append, List.length_replicate, List.length_take]
    omega

theorem fractionNanoseconds_lt {digits : Text} (h : AllDigits digits) :
    fractionNanoseconds digits < nanosecondsPerSecond := by
  obtain ⟨all, nine⟩ := filled_digits h
  have small := natural_lt all
  rw [nine] at small
  exact small

/-- A time given to the second leaves room for any fraction of one. -/
theorem fromComponents_room {year month day hour minute second : Int} {tz : Timezone}
    {t : Timestamp} (h : fromComponents year month day hour minute second tz = some t) :
    t.sinceMidnight + nanosecondsPerSecond ≤ nanosecondsPerDay := by
  unfold fromComponents at h
  split at h
  · cases h
  · split at h
    · cases h
    · rename_i time
      split at h
      · cases h
        push Not at time
        have last : (hour * 3600 + minute * 60 + second).toNat + 1 ≤ 86400 := by omega
        have day := Nat.mul_le_mul_right nanosecondsPerSecond last
        rw [Nat.succ_mul] at day
        exact day
      · cases h

theorem raw_addFraction {t : Timestamp} {digits : Text} (h : AllDigits digits)
    (room : t.sinceMidnight + nanosecondsPerSecond ≤ nanosecondsPerDay) :
    RawTimestamp.addFraction (some t.raw) (some digits) =
      some ((t.addNanoseconds (fractionNanoseconds digits)).map raw) := by
  have small := fractionNanoseconds_lt h
  have within : t.sinceMidnight + fractionNanoseconds digits < nanosecondsPerDay := by omega
  have sum : checked 64 (t.raw.sinceMidnight + fractionNanoseconds digits) =
      some ((t.sinceMidnight + fractionNanoseconds digits : Nat) : Int) := by
    rw [raw_sinceMidnight, ← Int.natCast_add]
    generalize t.sinceMidnight + fractionNanoseconds digits = sum at *
    rw [nanosecondsPerDay, nanoseconds_eq] at within
    exact checked_long (by omega) (by omega)
  rw [addNanoseconds, dif_pos within]
  rw [RawTimestamp.addFraction_some, sum, Option.bind_some, Option.map_some]
  congr 2

theorem raw_fromString (s : Text) :
    RawTimestamp.fromString s = some ((fromString s).map raw) := by
  unfold RawTimestamp.fromString fromString
  rcases takeThree 4 '-' s with _ | ⟨⟨year, month, day⟩, s⟩
  · rfl
  simp only [Option.bind_eq_bind, Option.bind_some]
  split
  · exact raw_fromComponents ..
  rcases takeChar 'T' s with _ | s
  · rfl
  simp only [Option.bind_some]
  rcases takeThree 2 ':' s with _ | ⟨⟨hour, minute, second⟩, s⟩
  · rfl
  simp only [Option.bind_some]
  rcases known : takeFraction s with _ | ⟨fraction, s⟩
  · rfl
  simp only [Option.bind_some]
  rcases takeZone s with _ | tz
  · rfl
  simp only [Option.bind_some]
  rw [raw_fromComponents, Option.bind_some]
  rcases made : fromComponents year month day hour minute second tz with _ | t
  · rfl
  · rcases fraction with _ | digits
    · rfl
    · exact raw_addFraction (takeFraction_digits known) (fromComponents_room made)

theorem Tick.bounds (tick : Tick) :
    0 < tick.perSecond ∧ tick.perSecond ≤ 1000000000 ∧ 0 < tick.nanoseconds := by
  have whole := tick.whole
  rw [nanoseconds_eq] at whole
  have second := tick.perSecond_pos
  have nanosecond : 0 < tick.nanoseconds := by
    by_contra zero
    rw [Nat.eq_zero_of_not_pos zero, Nat.zero_mul] at whole
    cases whole
  refine ⟨second, ?_, nanosecond⟩
  rw [← whole]
  exact Nat.le_mul_of_pos_left _ nanosecond

/-- A second is lent by the seconds only where the ticks are shorter than one. -/
theorem raw_sinceEpoch (tick : Tick) {tp : Int} (long : InWidth 64 tp) :
    RawTimestamp.sinceEpoch tick tp = some (sinceEpoch tick tp) := by
  obtain ⟨positive, few, -⟩ := tick.bounds
  have wide := long.tdiv (by decide) (Int.natCast_nonneg tick.perSecond)
  have back := long.tdiv_mul (by decide) tick.perSecond
  have split := Int.tdiv_mul_add_tmod tp tick.perSecond
  have above := Int.tmod_lt_of_pos tp (Int.natCast_pos.mpr positive)
  have below := Int.lt_tmod_of_pos tp (Int.natCast_pos.mpr positive)
  unfold RawTimestamp.sinceEpoch sinceEpoch
  rw [checked_eq wide, Option.bind_eq_bind, Option.bind_some, checked_eq back, Option.bind_some,
    checked_long (by omega) (by omega), Option.bind_some]
  split
  · rename_i borrowed
    have room : InWidth 64 (tp.tdiv tick.perSecond - 1) := by
      have two : (2 : Int) ≤ tick.perSecond := by omega
      rcases le_or_gt 0 (tp.tdiv tick.perSecond) with nonneg | negative
      · exact (show InWidth 64 (-1) by decide).of_between wide (by omega) (by omega)
      · have double := Int.mul_le_mul_of_nonpos_left negative.le two
        exact back.of_between wide (by omega) (by omega)
    rw [checked_eq room, Option.bind_some, checked_long (by omega) (by omega), Option.bind_some]
    exact congrArg some (if_pos borrowed).symm
  · rename_i kept
    exact congrArg some (if_neg kept).symm

theorem raw_fromTimePoint (tick : Tick) {tp : Int} (long : InWidth 64 tp) :
    RawTimestamp.fromTimePoint tick tp = some ((fromTimePoint tick tp).map raw) := by
  obtain ⟨-, nonneg, -⟩ := sinceEpoch_spec tick tp
  have below := fraction_lt tick tp
  have cast : (sinceEpoch tick tp).2 * tick.nanoseconds =
      (((sinceEpoch tick tp).2.toNat * tick.nanoseconds : Nat) : Int) := by
    rw [Int.natCast_mul, Int.toNat_of_nonneg nonneg]
  have small := below
  rw [nanoseconds_eq] at small
  unfold RawTimestamp.fromTimePoint fromTimePoint
  rw [raw_sinceEpoch tick long, Option.bind_eq_bind, Option.bind_some]
  by_cases inRange : firstSecond ≤ (sinceEpoch tick tp).1 ∧ (sinceEpoch tick tp).1 < endSecond
  · rw [dif_pos inRange, if_neg (by omega), cast, checked_long (by omega) (by omega),
      Option.bind_eq_bind, Option.bind_some, ← raw_epoch, raw_setLocal _ inRange below]
    rfl
  · rw [dif_neg inRange, if_pos (by omega)]
    rfl

theorem raw_ofTimePoint (tick : Tick) {tp : Int} (long : InWidth 64 tp) :
    RawTimestamp.ofTimePoint tick tp = some (ofTimePoint tick tp).raw := by
  unfold RawTimestamp.ofTimePoint ofTimePoint
  rw [raw_fromTimePoint tick long, Option.bind_eq_bind, Option.bind_some]
  rcases fromTimePoint tick tp with _ | t
  · have positive : (0 : Int) < tick.perSecond := Int.natCast_pos.mpr tick.perSecond_pos
    have whole := floorTo_eq positive long (long.ediv (by decide) positive)
      (long.tdiv (by decide) positive.le)
    have first := raw_setLocal epoch (show firstSecond ≤ firstSecond ∧ firstSecond < endSecond by decide)
      (show 0 < nanosecondsPerSecond by decide)
    have last := raw_setLocal epoch
      (show firstSecond ≤ endSecond - 1 ∧ endSecond - 1 < endSecond by decide)
      (show 999999999 < nanosecondsPerSecond by decide)
    rw [Option.map_none]
    apply Eq.trans (b := (RawTimestamp.nearerEnd tick tp)) rfl
    rw [RawTimestamp.nearerEnd, whole, Option.bind_eq_bind, Option.bind_some, ← raw_epoch]
    split
    · exact first
    · exact last
  · rfl

end Timestamp

end Dross
