import Dross.Library.Calendar
import Dross.Type.NumberText

/-!
# Timestamps

A timestamp is a local date, a time of day in nanoseconds and an offset. Its
date exists within the years 0 to 9999, its time is before midnight and its
offset is one RFC 3339 can write, so no operation can leave another.
-/

namespace Dross

def nanosecondsPerSecond : Nat := 1000000000

def nanosecondsPerDay : Nat := 86400 * nanosecondsPerSecond

/-- 23:59 in minutes -/
def maxOffset : Int := 1439

/-- `timezone` -/
structure Timezone where
  offsetMinutes : Int
  inRange : -maxOffset ≤ offsetMinutes ∧ offsetMinutes ≤ maxOffset
deriving DecidableEq

/-- `timestamp::date_part` -/
structure DatePart where
  year : Nat
  month : Nat
  day : Nat
  ok : year ≤ 9999 ∧ Calendar.Exists year month day
deriving DecidableEq

structure Timestamp where
  date : DatePart
  /-- `time_part::_since_midnight` -/
  sinceMidnight : Nat
  timezone : Timezone
  withinDay : sinceMidnight < nanosecondsPerDay
deriving DecidableEq

/-! ## Time zones -/

namespace Timezone

def utc : Timezone := ⟨0, by decide⟩

end Timezone

/-- `take_digits`: so many digits at the front, as a number. -/
def takeDigits (count : Nat) (s : Text) : Option (Nat × Text) :=
  if (s.take count).length = count ∧ AllDigits (s.take count) then
    some (natural (s.take count), s.drop count)
  else none

def takeChar (c : Char) (s : Text) : Option Text :=
  if s.head? = some (ch c) then some s.tail else none

/-- `(\d{1,2}):?(\d{2})$` with so many digits for the hours -/
def takeOffset (hourDigits : Nat) (s : Text) : Option (Nat × Nat) := do
  let (hours, s) ← takeDigits hourDigits s
  let (minutes, s) ← takeDigits 2 ((takeChar ':' s).getD s)
  if s = [] then some (hours, minutes) else none

/-- `timezone::from_string` -/
def Timezone.fromString (s : Text) : Option Timezone :=
  if s = [ch 'Z'] ∨ s = [ch 'z'] then some utc
  else if s.head? = some (ch '+') ∨ s.head? = some (ch '-') then
    match (takeOffset 2 s.tail).or (takeOffset 1 s.tail) with
    | none => none
    | some (hours, minutes) =>
      if minutes > 59 then none
      else
        let totalMinutes : Int := hours * 60 + minutes
        let totalMinutes := if s.head? = some (ch '-') then -totalMinutes else totalMinutes
        if inRange : -maxOffset ≤ totalMinutes ∧ totalMinutes ≤ maxOffset then
          some ⟨totalMinutes, inRange⟩
        else none
  else none

/-- `std::setw(width)` with `std::setfill('0')` -/
def zeroFilled (width n : Nat) : Text :=
  List.replicate (width - (countText n).length) (ch '0') ++ countText n

/-- `timezone::format` -/
def Timezone.format (tz : Timezone) : Text :=
  if tz.offsetMinutes = 0 then [ch 'Z']
  else
    let sign := if tz.offsetMinutes ≥ 0 then ch '+' else ch '-'
    let absOffset := tz.offsetMinutes.natAbs
    sign :: (zeroFilled 2 (absOffset / 60) ++ ch ':' :: zeroFilled 2 (absOffset % 60))

namespace Timestamp

/-! ## Construction -/

def fromComponents (year month day hour minute second : Int) (tz : Timezone) : Option Timestamp :=
  if date : year < 0 ∨ year > 9999 ∨ month < 1 ∨ month > 12 ∨ day < 1 ∨ day > 31 then none
  else if time : hour < 0 ∨ hour > 23 ∨ minute < 0 ∨ minute > 59 ∨ second < 0 ∨ second > 59 then
    none
  else if ok : Calendar.Exists year.toNat month.toNat day.toNat then
    some {
      date := ⟨year.toNat, month.toNat, day.toNat, by omega, ok⟩
      sinceMidnight := (hour * 3600 + minute * 60 + second).toNat * nanosecondsPerSecond
      timezone := tz
      withinDay := by
        unfold nanosecondsPerDay nanosecondsPerSecond
        omega }
  else none

/-- `timestamp()`, the first of January 1970 -/
def epoch : Timestamp :=
  ⟨⟨1970, 1, 1, by decide⟩, 0, Timezone.utc, by decide⟩

/-- `year_month_day_of` of the days before 1970 -/
def epochDays : Nat := 719528

/-- The first second of the year 0 and the one after the year 9999. -/
def firstSecond : Int := -719528 * 86400

def endSecond : Int := 2932897 * 86400

theorem local_date_exists {seconds : Int} (inRange : firstSecond ≤ seconds ∧ seconds < endSecond) :
    (Calendar.dateOf (seconds / 86400 + epochDays).toNat).1 ≤ 9999 ∧
      Calendar.Exists (Calendar.dateOf (seconds / 86400 + epochDays).toNat).1
        (Calendar.dateOf (seconds / 86400 + epochDays).toNat).2.1
        (Calendar.dateOf (seconds / 86400 + epochDays).toNat).2.2 := by
  have last : Calendar.daysBeforeYear 10000 = 3652425 := rfl
  have before : (seconds / 86400 + epochDays).toNat < Calendar.daysBeforeYear 10000 := by
    unfold firstSecond endSecond epochDays at *
    omega
  obtain ⟨year, ok⟩ := Calendar.dateOf_exists before
  exact ⟨Nat.lt_succ_iff.mp year, ok⟩

/-- `set_local`, which keeps the offset -/
def setLocal (t : Timestamp) (seconds : Int) (fraction : Nat)
    (inRange : firstSecond ≤ seconds ∧ seconds < endSecond)
    (below : fraction < nanosecondsPerSecond) : Timestamp :=
  let date := Calendar.dateOf (seconds / 86400 + epochDays).toNat
  { date := ⟨date.1, date.2.1, date.2.2, local_date_exists inRange⟩
    sinceMidnight := (seconds % 86400).toNat * nanosecondsPerSecond + fraction
    timezone := t.timezone
    withinDay := by
      unfold nanosecondsPerDay nanosecondsPerSecond at *
      omega }

/-- The tick of `system_clock`, in nanoseconds. A second is a whole number of ticks. -/
structure Tick where
  nanoseconds : Nat
  perSecond : Nat
  whole : nanoseconds * perSecond = nanosecondsPerSecond

/-- The seconds of a time point and the ticks after them, borrowed from the
seconds where the time point is negative. -/
def sinceEpoch (tick : Tick) (tp : Int) : Int × Int :=
  let whole := tp.tdiv tick.perSecond
  let fraction := tp - whole * tick.perSecond
  if fraction < 0 then (whole - 1, fraction + tick.perSecond) else (whole, fraction)

theorem Tick.perSecond_pos (tick : Tick) : 0 < tick.perSecond := by
  refine Nat.pos_of_ne_zero ?_
  intro zero
  have second := tick.whole
  rw [zero, Nat.mul_zero] at second
  cases second

theorem sinceEpoch_spec (tick : Tick) (tp : Int) :
    (sinceEpoch tick tp).1 * tick.perSecond + (sinceEpoch tick tp).2 = tp ∧
      0 ≤ (sinceEpoch tick tp).2 ∧ (sinceEpoch tick tp).2 < tick.perSecond := by
  have positive : (0 : Int) < tick.perSecond := Int.natCast_pos.mpr tick.perSecond_pos
  have rest : tp - tp.tdiv tick.perSecond * tick.perSecond = tp.tmod tick.perSecond := by
    rw [Int.tmod_def, Int.mul_comm]
  have upper := Int.tmod_lt_of_pos tp positive
  have lower := Int.lt_tmod_of_pos tp positive
  simp only [sinceEpoch, rest]
  split
  · simp only [Int.sub_mul]
    omega
  · simp only
    omega

theorem fraction_lt (tick : Tick) (tp : Int) :
    (sinceEpoch tick tp).2.toNat * tick.nanoseconds < nanosecondsPerSecond := by
  obtain ⟨-, nonneg, small⟩ := sinceEpoch_spec tick tp
  have positive : 0 < tick.nanoseconds := by
    refine Nat.pos_of_ne_zero ?_
    intro zero
    have second := tick.whole
    rw [zero, Nat.zero_mul] at second
    cases second
  have fewer : (sinceEpoch tick tp).2.toNat < tick.perSecond := by omega
  calc (sinceEpoch tick tp).2.toNat * tick.nanoseconds
      < tick.perSecond * tick.nanoseconds := Nat.mul_lt_mul_of_pos_right fewer positive
    _ = nanosecondsPerSecond := by rw [Nat.mul_comm, tick.whole]

def fromTimePoint (tick : Tick) (tp : Int) : Option Timestamp :=
  if inRange : firstSecond ≤ (sinceEpoch tick tp).1 ∧ (sinceEpoch tick tp).1 < endSecond then
    some (epoch.setLocal (sinceEpoch tick tp).1
      ((sinceEpoch tick tp).2.toNat * tick.nanoseconds) inRange (fraction_lt tick tp))
  else none

/-- `timestamp(tp)`, the nearer end of the range for a time point outside it -/
def ofTimePoint (tick : Tick) (tp : Int) : Timestamp :=
  match fromTimePoint tick tp with
  | some converted => converted
  | none =>
    if tp / tick.perSecond < firstSecond then
      epoch.setLocal firstSecond 0 (by decide) (by decide)
    else epoch.setLocal (endSecond - 1) 999999999 (by decide) (by decide)

/-! ## Arithmetic -/

def hour (t : Timestamp) : Nat := t.sinceMidnight / (3600 * nanosecondsPerSecond)

def minute (t : Timestamp) : Nat := t.sinceMidnight / (60 * nanosecondsPerSecond) % 60

def second (t : Timestamp) : Nat := t.sinceMidnight / nanosecondsPerSecond % 60

def subseconds (t : Timestamp) : Nat := t.sinceMidnight % nanosecondsPerSecond

theorem subseconds_lt (t : Timestamp) : t.subseconds < nanosecondsPerSecond :=
  Nat.mod_lt _ (by decide)

def localSeconds (t : Timestamp) : Int :=
  (Calendar.dayNumber t.date.year t.date.month t.date.day - epochDays) * 86400 +
    t.sinceMidnight / nanosecondsPerSecond

/-- The seconds in UTC and the nanoseconds after them. -/
def instant (t : Timestamp) : Int × Nat :=
  (t.localSeconds - t.timezone.offsetMinutes * 60, t.subseconds)

/-- `operator==` -/
def equals (t u : Timestamp) : Bool := t.instant == u.instant

def add (t : Timestamp) (duration : Int) : Option Timestamp :=
  if out : duration < firstSecond - t.localSeconds ∨ duration ≥ endSecond - t.localSeconds then none
  else some (t.setLocal (t.localSeconds + duration) t.subseconds
    (by generalize t.localSeconds = s at *; generalize firstSecond = a at *
        generalize endSecond = b at *; omega) t.subseconds_lt)

/-- `std::chrono::seconds::min()` -/
def minSeconds : Int := -9223372036854775808

def subtract (t : Timestamp) (duration : Int) : Option Timestamp :=
  if duration = minSeconds then none else t.add (-duration)

/-! ## Text -/

/-- `(?:\.(\d+))?`: the digits of the fraction, if there is one. -/
def takeFraction (s : Text) : Option (Option Text × Text) :=
  match takeChar '.' s with
  | none => some (none, s)
  | some s =>
    if s.takeWhile isDigit = [] then none
    else some (some (s.takeWhile isDigit), s.dropWhile isDigit)

/-- `(Z|[+-]\d{2}:\d{2})$` -/
def matchesZone (s : Text) : Bool :=
  s == [ch 'Z'] ||
    ((s.head? == some (ch '+') || s.head? == some (ch '-')) &&
      ((takeDigits 2 s.tail).bind (fun hours => (takeChar ':' hours.2).bind (takeDigits 2))).any
        (fun minutes => minutes.2 == []))

/-- The optional offset that ends the text, read as UTC where it is left out. -/
def takeZone (s : Text) : Option Timezone :=
  if s = [] then some Timezone.utc
  else if matchesZone s then Timezone.fromString s
  else none

/-- `_since_midnight += nanoseconds`. A time of whole seconds stays within its day. -/
def addNanoseconds (t : Timestamp) (nanoseconds : Nat) : Option Timestamp :=
  if withinDay : t.sinceMidnight + nanoseconds < nanosecondsPerDay then
    some { t with sinceMidnight := t.sinceMidnight + nanoseconds, withinDay := withinDay }
  else none

/-- The first nine digits of the fraction, filled up with zeros. -/
def fractionNanoseconds (digits : Text) : Nat :=
  natural (digits.take 9 ++ List.replicate (9 - (digits.take 9).length) (ch '0'))

/-- Three numbers with a character between each two. -/
def takeThree (width : Nat) (c : Char) (s : Text) : Option ((Nat × Nat × Nat) × Text) := do
  let (first, s) ← takeDigits width s
  let s ← takeChar c s
  let (second, s) ← takeDigits 2 s
  let s ← takeChar c s
  let (third, s) ← takeDigits 2 s
  some ((first, second, third), s)

def fromString (s : Text) : Option Timestamp := do
  let ((year, month, day), s) ← takeThree 4 '-' s
  if s = [] then fromComponents year month day 0 0 0 Timezone.utc
  else
    let s ← takeChar 'T' s
    let ((hour, minute, second), s) ← takeThree 2 ':' s
    let (fraction, s) ← takeFraction s
    let tz ← takeZone s
    let result ← fromComponents year month day hour minute second tz
    match fraction with
    | none => some result
    | some digits => result.addNanoseconds (fractionNanoseconds digits)

/-- `timestamp(year, month, day, hour, minute, second, tz)` -/
def ofComponents (year month day hour minute second : Int) (tz : Timezone) : Timestamp :=
  (fromComponents year month day hour minute second tz).getD epoch

def fractionText (fraction : Nat) : Text :=
  if fraction = 0 then []
  else ch '.' :: (zeroFilled 9 fraction).rdropWhile (fun c => c == ch '0')

def writeThree (width : Nat) (c : Char) (first second third : Nat) : Text :=
  zeroFilled width first ++ ch c :: (zeroFilled 2 second ++ ch c :: zeroFilled 2 third)

def formatIso8601 (t : Timestamp) : Text :=
  writeThree 4 '-' t.date.year t.date.month t.date.day ++
    ch 'T' :: (writeThree 2 ':' t.hour t.minute t.second ++
      (fractionText t.subseconds ++ t.timezone.format))

end Timestamp

end Dross
