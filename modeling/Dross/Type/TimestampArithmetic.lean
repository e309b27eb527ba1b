import Dross.Type.TimestampStorage

/-!
# Arithmetic of timestamps

Whatever way a timestamp is made, it is within its bounds and nothing overflowed on the way.
Moved by a duration it keeps its offset and its fraction of a second, unless its local year
leaves the range.
-/

namespace Dross

open MachineInt

namespace Timestamp

/-- The local year at so many seconds, before and after the range as well. -/
def yearAt (seconds : Int) : Int := Calendar.yearOfDay (seconds / 86400 + epochDays)

theorem yearAt_range (seconds : Int) :
    0 ≤ yearAt seconds ∧ yearAt seconds ≤ 9999 ↔ firstSecond ≤ seconds ∧ seconds < endSecond := by
  unfold yearAt
  rw [Calendar.yearOfDay_range]
  unfold firstSecond endSecond epochDays
  omega

theorem add_isSome_iff (t : Timestamp) (d : Int) :
    (t.add d).isSome ↔ 0 ≤ yearAt (t.localSeconds + d) ∧ yearAt (t.localSeconds + d) ≤ 9999 := by
  rw [yearAt_range]
  unfold add
  split
  · rename_i out
    constructor
    · intro some
      cases some
    · omega
  · rename_i inside
    constructor
    · intro _
      omega
    · intro _
      rfl

theorem setLocal_subseconds (t : Timestamp) {seconds : Int} {fraction : Nat}
    (inRange : firstSecond ≤ seconds ∧ seconds < endSecond)
    (below : fraction < nanosecondsPerSecond) :
    (t.setLocal seconds fraction inRange below).subseconds = fraction := by
  apply Eq.trans (Nat.mul_add_mod_self_right _ _ _)
  exact Nat.mod_eq_of_lt below

/-- A local time set is the local time read. -/
theorem setLocal_localSeconds (t : Timestamp) {seconds : Int} {fraction : Nat}
    (inRange : firstSecond ≤ seconds ∧ seconds < endSecond)
    (below : fraction < nanosecondsPerSecond) :
    (t.setLocal seconds fraction inRange below).localSeconds = seconds := by
  have days := Calendar.dayNumber_dateOf (seconds / 86400 + epochDays).toNat
  have time : ((seconds % 86400).toNat * nanosecondsPerSecond + fraction) / nanosecondsPerSecond =
      (seconds % 86400).toNat := by
    rw [nanoseconds_eq] at below ⊢
    omega
  have read : (t.setLocal seconds fraction inRange below).localSeconds =
      (((seconds / 86400 + epochDays).toNat : Int) - epochDays) * 86400 +
        ((seconds % 86400).toNat : Int) := by
    rw [← days, ← time, Int.natCast_div]
    rfl
  rw [read]
  unfold firstSecond epochDays at *
  omega

theorem eq_of_parts {t u : Timestamp}
    (date : (t.date.year, t.date.month, t.date.day) = (u.date.year, u.date.month, u.date.day))
    (time : t.sinceMidnight = u.sinceMidnight) (zone : t.timezone = u.timezone) : t = u := by
  obtain ⟨⟨year, month, day, ok⟩, sinceMidnight, timezone, withinDay⟩ := t
  obtain ⟨⟨year', month', day', ok'⟩, sinceMidnight', timezone', withinDay'⟩ := u
  cases date
  cases time
  cases zone
  rfl

/-- A local time read and set again changes nothing. -/
theorem setLocal_self (t : Timestamp) :
    t.setLocal t.localSeconds t.subseconds t.localSeconds_bounds t.subseconds_lt = t := by
  have days := t.day_bounds
  obtain ⟨split, small, within⟩ := t.time_split
  have number : (t.localSeconds / 86400 + epochDays).toNat =
      Calendar.dayNumber t.date.year t.date.month t.date.day := by
    unfold localSeconds epochDays
    rw [← Int.natCast_div]
    omega
  have time : (t.localSeconds % 86400).toNat = t.sinceMidnight / nanosecondsPerSecond := by
    unfold localSeconds
    rw [← Int.natCast_div]
    omega
  have date := Calendar.dateOf_dayNumber t.date.ok.2
  rw [← number] at date
  apply eq_of_parts
  · exact date
  · have shown : (t.setLocal t.localSeconds t.subseconds t.localSeconds_bounds
        t.subseconds_lt).sinceMidnight =
        (t.localSeconds % 86400).toNat * nanosecondsPerSecond + t.subseconds := rfl
    rw [shown, time]
    exact Nat.div_add_mod' _ _
  · rfl

theorem add_eq_some {t u : Timestamp} {d : Int} (h : t.add d = some u) :
    ∃ inRange, u = t.setLocal (t.localSeconds + d) t.subseconds inRange t.subseconds_lt := by
  unfold add at h
  split at h
  · cases h
  · cases h
    exact ⟨_, rfl⟩

theorem add_localSeconds {t u : Timestamp} {d : Int} (h : t.add d = some u) :
    u.localSeconds = t.localSeconds + d := by
  obtain ⟨inRange, rfl⟩ := add_eq_some h
  exact setLocal_localSeconds ..

theorem add_subseconds {t u : Timestamp} {d : Int} (h : t.add d = some u) :
    u.subseconds = t.subseconds := by
  obtain ⟨inRange, rfl⟩ := add_eq_some h
  exact setLocal_subseconds ..

theorem add_timezone {t u : Timestamp} {d : Int} (h : t.add d = some u) :
    u.timezone = t.timezone := by
  obtain ⟨inRange, rfl⟩ := add_eq_some h
  rfl

theorem add_instant {t u : Timestamp} {d : Int} (h : t.add d = some u) :
    u.instant = (t.instant.1 + d, t.instant.2) := by
  unfold instant
  rw [add_localSeconds h, add_subseconds h, add_timezone h]
  congr 1
  omega

theorem setLocal_congr (t : Timestamp) {u : Timestamp} {seconds seconds' : Int}
    {fraction fraction' : Nat} (inRange : firstSecond ≤ seconds ∧ seconds < endSecond)
    (below : fraction < nanosecondsPerSecond) (zone : u.timezone = t.timezone)
    (same : seconds' = seconds) (same' : fraction' = fraction) :
    u.setLocal seconds' fraction' (same ▸ inRange) (same' ▸ below) =
      t.setLocal seconds fraction inRange below := by
  subst same same'
  unfold setLocal
  rw [zone]

theorem add_neg {t u : Timestamp} {d : Int} (h : t.add d = some u) : u.add (-d) = some t := by
  have here := add_localSeconds h
  have bounds := t.localSeconds_bounds
  unfold add
  rw [dif_neg (by omega)]
  congr 1
  refine Eq.trans ?_ t.setLocal_self
  apply setLocal_congr
  · exact add_timezone h
  · omega
  · exact add_subseconds h

/-! ## Durations -/

/-- A count of a longer unit in seconds, where they fit. -/
theorem inSeconds_eq {unit count : Int} (positive : 0 < unit) :
    inSeconds unit count =
      some (if InWidth 64 (count * unit) then some (count * unit) else none) := by
  have width : InWidth 64 (count * unit) ↔
      minSeconds ≤ count * unit ∧ count * unit ≤ maxSeconds := by
    unfold InWidth minSeconds maxSeconds
    omega
  have high : count ≤ maxSeconds.tdiv unit ↔ count * unit ≤ maxSeconds := by
    rw [Int.tdiv_eq_ediv_of_nonneg (by decide), Int.le_ediv_iff_mul_le positive]
  have low : minSeconds.tdiv unit ≤ count ↔ minSeconds ≤ count * unit := by
    have opposite : minSeconds.tdiv unit = -((-minSeconds) / unit) := by
      rw [← Int.tdiv_eq_ediv_of_nonneg (by decide), Int.neg_tdiv, neg_neg]
    rw [opposite, neg_le, Int.le_ediv_iff_mul_le positive, Int.neg_mul, neg_le_neg_iff]
  rw [← low, ← high] at width
  unfold inSeconds
  split
  · rename_i out
    rw [if_neg]
    rw [width]
    omega
  · rename_i inside
    have fits : InWidth 64 (count * unit) := by
      rw [width]
      omega
    rw [if_pos fits, checked_eq fits]
    rfl

/-- The seconds of a duration too long to count never reach the range. -/
theorem add_none (t : Timestamp) {d : Int} (wide : ¬InWidth 64 d) : t.add d = none := by
  have bounds := t.localSeconds_bounds
  unfold firstSecond endSecond at bounds
  unfold add firstSecond endSecond
  rw [dif_pos]
  unfold InWidth at wide
  omega

theorem raw_plus (t : Timestamp) {unit count : Int} (positive : 0 < unit) :
    t.raw.plus unit count =
      some (RawTimestamp.valueOrThrow ((t.add (count * unit)).map raw)) := by
  unfold RawTimestamp.plus
  rw [inSeconds_eq positive, Option.bind_eq_bind, Option.bind_some]
  by_cases fits : InWidth 64 (count * unit)
  · rw [if_pos fits]
    exact congrArg (Option.map RawTimestamp.valueOrThrow) (t.raw_add _)
  · rw [if_neg fits, t.add_none fits]
    rfl

theorem subtract_none (t : Timestamp) {d : Int} (wide : ¬InWidth 64 d) : t.subtract d = none := by
  have bounds := t.localSeconds_bounds
  unfold firstSecond endSecond at bounds
  unfold subtract
  split
  · rfl
  · unfold add firstSecond endSecond
    rw [dif_pos]
    unfold InWidth at wide
    omega

theorem raw_minus (t : Timestamp) {unit count : Int} (positive : 0 < unit) :
    t.raw.minus unit count =
      some (RawTimestamp.valueOrThrow ((t.subtract (count * unit)).map raw)) := by
  unfold RawTimestamp.minus
  rw [inSeconds_eq positive, Option.bind_eq_bind, Option.bind_some]
  by_cases fits : InWidth 64 (count * unit)
  · rw [if_pos fits]
    exact congrArg (Option.map RawTimestamp.valueOrThrow) (t.raw_subtract _ fits)
  · rw [if_neg fits, t.subtract_none fits]
    rfl

end Timestamp

namespace RawTimestamp

open Timestamp (Tick)

/-- Every way of making a timestamp. -/
inductive Made (tick : Tick) : RawTimestamp → Prop
  | epoch : Made tick epoch
  | ofTimePoint {tp t} (long : InWidth 64 tp) (made : ofTimePoint tick tp = some t) : Made tick t
  | ofString {s t} (made : ofString s = some t) : Made tick t
  | ofComponents {year month day hour minute second tz t}
    (made : ofComponents year month day hour minute second tz = some t) : Made tick t
  | fromString {s t} (made : fromString s = some (some t)) : Made tick t
  | fromTimePoint {tp t} (long : InWidth 64 tp) (made : fromTimePoint tick tp = some (some t)) :
    Made tick t
  | fromComponents {year month day hour minute second tz t}
    (made : fromComponents year month day hour minute second tz = some (some t)) : Made tick t
  | add {t u d} (before : Made tick t) (long : InWidth 64 d) (made : t.add d = some (some u)) :
    Made tick u
  | subtract {t u d} (before : Made tick t) (long : InWidth 64 d)
    (made : t.subtract d = some (some u)) : Made tick u
  | plusSeconds {t u d} (before : Made tick t) (long : InWidth 64 d)
    (made : t.plusSeconds d = some (.ok u)) : Made tick u
  | minusSeconds {t u d} (before : Made tick t) (long : InWidth 64 d)
    (made : t.minusSeconds d = some (.ok u)) : Made tick u
  | plusMinutes {t u d} (before : Made tick t) (long : InWidth 64 d)
    (made : t.plusMinutes d = some (.ok u)) : Made tick u
  | minusMinutes {t u d} (before : Made tick t) (long : InWidth 64 d)
    (made : t.minusMinutes d = some (.ok u)) : Made tick u
  | plusHours {t u d} (before : Made tick t) (long : InWidth 64 d)
    (made : t.plusHours d = some (.ok u)) : Made tick u
  | minusHours {t u d} (before : Made tick t) (long : InWidth 64 d)
    (made : t.minusHours d = some (.ok u)) : Made tick u

/-- The parts are those of a timestamp. -/
def Sound (t : RawTimestamp) : Prop := ∃ u : Timestamp, t = u.raw

theorem Sound.of_option {result : Option Timestamp} {t : RawTimestamp}
    (h : some (result.map Timestamp.raw) = some (some t)) : Sound t := by
  rcases result with _ | u
  · cases h
  · cases h
    exact ⟨u, rfl⟩

theorem Sound.of_getD {result : Option Timestamp} {t : RawTimestamp}
    (h : (some (result.map Timestamp.raw)).map (fun t => t.getD RawTimestamp.epoch) = some t) :
    Sound t := by
  rcases result with _ | u
  · cases h
    exact ⟨Timestamp.epoch, Timestamp.raw_epoch.symm⟩
  · cases h
    exact ⟨u, rfl⟩

theorem Sound.of_except {result : Option Timestamp} {t : RawTimestamp}
    (h : some (valueOrThrow (result.map Timestamp.raw)) = some (.ok t)) : Sound t := by
  rcases result with _ | u
  · cases h
  · cases h
    exact ⟨u, rfl⟩

theorem Made.sound {tick : Tick} {t : RawTimestamp} (h : Made tick t) : Sound t := by
  induction h with
  | epoch => exact ⟨Timestamp.epoch, Timestamp.raw_epoch.symm⟩
  | ofTimePoint long made =>
    rw [Timestamp.raw_ofTimePoint tick long] at made
    cases made
    exact ⟨_, rfl⟩
  | ofString made =>
    rw [RawTimestamp.ofString, Timestamp.raw_fromString] at made
    exact Sound.of_getD made
  | ofComponents made =>
    rw [RawTimestamp.ofComponents, Timestamp.raw_fromComponents] at made
    exact Sound.of_getD made
  | fromString made =>
    rw [Timestamp.raw_fromString] at made
    exact Sound.of_option made
  | fromTimePoint long made =>
    rw [Timestamp.raw_fromTimePoint tick long] at made
    exact Sound.of_option made
  | fromComponents made =>
    rw [Timestamp.raw_fromComponents] at made
    exact Sound.of_option made
  | add before long made ih =>
    obtain ⟨u, rfl⟩ := ih
    rw [u.raw_add] at made
    exact Sound.of_option made
  | subtract before long made ih =>
    obtain ⟨u, rfl⟩ := ih
    rw [u.raw_subtract _ long] at made
    exact Sound.of_option made
  | plusSeconds before long made ih =>
    obtain ⟨u, rfl⟩ := ih
    rw [RawTimestamp.plusSeconds, u.raw_add] at made
    exact Sound.of_except made
  | minusSeconds before long made ih =>
    obtain ⟨u, rfl⟩ := ih
    rw [RawTimestamp.minusSeconds, u.raw_subtract _ long] at made
    exact Sound.of_except made
  | plusMinutes before long made ih =>
    obtain ⟨u, rfl⟩ := ih
    rw [RawTimestamp.plusMinutes, u.raw_plus (by decide)] at made
    exact Sound.of_except made
  | minusMinutes before long made ih =>
    obtain ⟨u, rfl⟩ := ih
    rw [RawTimestamp.minusMinutes, u.raw_minus (by decide)] at made
    exact Sound.of_except made
  | plusHours before long made ih =>
    obtain ⟨u, rfl⟩ := ih
    rw [RawTimestamp.plusHours, u.raw_plus (by decide)] at made
    exact Sound.of_except made
  | minusHours before long made ih =>
    obtain ⟨u, rfl⟩ := ih
    rw [RawTimestamp.minusHours, u.raw_minus (by decide)] at made
    exact Sound.of_except made

/-- What moving a timestamp by so many seconds comes to. -/
structure MovedBy (t : RawTimestamp) (d : Int) (result : Option RawTimestamp) : Prop where
  inRange : ∃ here, t.localSeconds = some here ∧
    (result.isSome ↔ 0 ≤ Timestamp.yearAt (here + d) ∧ Timestamp.yearAt (here + d) ≤ 9999)
  instant : ∀ u ∈ result, ∃ seconds fraction,
    t.instant = some (seconds, fraction) ∧ u.instant = some (seconds + d, fraction)
  subseconds : ∀ u ∈ result, ∃ fraction,
    t.subseconds = some fraction ∧ u.subseconds = some fraction
  offset : ∀ u ∈ result, u.timezone = t.timezone

/-- The operators of a unit move by its seconds, and throw where that has no result. -/
structure MovedIn (t : RawTimestamp) (unit : Int)
    (plus minus : Int → Option (Except String RawTimestamp)) : Prop where
  plus : ∀ count, InWidth 64 count → ∃ result, MovedBy t (count * unit) result ∧
    plus count = some (valueOrThrow result) ∧
      (InWidth 64 (count * unit) → t.add (count * unit) = some result)
  minus : ∀ count, InWidth 64 count → ∃ result, MovedBy t (-(count * unit)) result ∧
    minus count = some (valueOrThrow result) ∧
      (InWidth 64 (count * unit) → t.subtract (count * unit) = some result)

/-- Every timestamp of this clock is within its bounds, and so are its sums and differences. -/
structure Arithmetic (t : RawTimestamp) : Prop where
  valid : t.Valid
  add : ∀ d, InWidth 64 d → ∃ result, t.add d = some result ∧ MovedBy t d result ∧
    ∀ u ∈ result, u.subtract d = some (some t)
  subtract : ∀ d, InWidth 64 d → ∃ result, t.subtract d = some result ∧ MovedBy t (-d) result
  seconds : MovedIn t 1 t.plusSeconds t.minusSeconds
  minutes : MovedIn t 60 t.plusMinutes t.minusMinutes
  hours : MovedIn t 3600 t.plusHours t.minusHours

/-- Nothing overflows where a timestamp is made. -/
structure Construction (tick : Tick) : Prop where
  ofTimePoint : ∀ tp, InWidth 64 tp → (ofTimePoint tick tp).isSome
  ofString : ∀ s, (ofString s).isSome
  ofComponents : ∀ year month day hour minute second tz,
    (ofComponents year month day hour minute second tz).isSome
  fromTimePoint : ∀ tp, InWidth 64 tp → (fromTimePoint tick tp).isSome
  fromString : ∀ s, (fromString s).isSome
  fromComponents : ∀ year month day hour minute second tz,
    (fromComponents year month day hour minute second tz).isSome

end RawTimestamp

namespace Timestamp

theorem movedBy_add (t : Timestamp) (d : Int) :
    RawTimestamp.MovedBy t.raw d ((t.add d).map raw) := by
  constructor
  · refine ⟨t.localSeconds, t.raw_localSeconds, ?_⟩
    rw [Option.isSome_map, add_isSome_iff]
  · intro u moved
    obtain ⟨v, added, rfl⟩ := Option.mem_map.mp moved
    refine ⟨t.instant.1, t.instant.2, t.raw_instant, ?_⟩
    rw [v.raw_instant, add_instant added]
  · intro u moved
    obtain ⟨v, added, rfl⟩ := Option.mem_map.mp moved
    refine ⟨t.subseconds, t.raw_subseconds, ?_⟩
    rw [v.raw_subseconds, add_subseconds added]
  · intro u moved
    obtain ⟨v, added, rfl⟩ := Option.mem_map.mp moved
    exact add_timezone added

theorem subtract_eq_add (t : Timestamp) (d : Int) : t.subtract d = t.add (-d) := by
  have bounds := t.localSeconds_bounds
  unfold subtract
  split
  · rename_i least
    unfold firstSecond endSecond at bounds
    rw [least, add, dif_pos]
    unfold minSeconds firstSecond endSecond
    omega
  · rfl

theorem movedIn (t : Timestamp) {unit : Int}
    {plus minus : Int → Option (Except String RawTimestamp)}
    (hp : ∀ count, InWidth 64 count → plus count =
      some (RawTimestamp.valueOrThrow ((t.add (count * unit)).map raw)))
    (hm : ∀ count, InWidth 64 count → minus count =
      some (RawTimestamp.valueOrThrow ((t.subtract (count * unit)).map raw))) :
    RawTimestamp.MovedIn t.raw unit plus minus := by
  constructor
  · intro count long
    exact ⟨_, t.movedBy_add _, hp count long, fun _ => t.raw_add _⟩
  · intro count long
    refine ⟨_, t.movedBy_add _, ?_, fun fits => ?_⟩
    · rw [hm count long, subtract_eq_add]
    · rw [t.raw_subtract _ fits, subtract_eq_add]

theorem raw_arithmetic (t : Timestamp) : t.raw.Arithmetic := by
  constructor
  · exact t.raw_valid
  · intro d long
    refine ⟨_, t.raw_add d, t.movedBy_add d, ?_⟩
    intro u moved
    obtain ⟨v, added, rfl⟩ := Option.mem_map.mp moved
    rw [v.raw_subtract d long, subtract_eq_add, add_neg added]
    rfl
  · intro d long
    refine ⟨_, t.raw_subtract d long, ?_⟩
    rw [subtract_eq_add]
    exact t.movedBy_add (-d)
  · apply movedIn
    · intro count _
      rw [RawTimestamp.plusSeconds, raw_add, Int.mul_one]
      rfl
    · intro count long
      rw [RawTimestamp.minusSeconds, raw_subtract _ _ long, Int.mul_one]
      rfl
  · exact movedIn t (fun _ _ => t.raw_plus (by decide)) (fun _ _ => t.raw_minus (by decide))
  · exact movedIn t (fun _ _ => t.raw_plus (by decide)) (fun _ _ => t.raw_minus (by decide))

end Timestamp

namespace RawTimestamp

open Timestamp (Tick)

theorem construction (tick : Tick) : Construction tick := by
  constructor
  · intro tp long
    rw [Timestamp.raw_ofTimePoint tick long]
    rfl
  · intro s
    rw [ofString, Timestamp.raw_fromString]
    rfl
  · intro year month day hour minute second tz
    rw [ofComponents, Timestamp.raw_fromComponents]
    rfl
  · intro tp long
    rw [Timestamp.raw_fromTimePoint tick long]
    rfl
  · intro s
    rw [Timestamp.raw_fromString]
    rfl
  · intro year month day hour minute second tz
    rw [Timestamp.raw_fromComponents]
    rfl

/-- Timestamps stay within their bounds, and moving one by a duration is exact or refused. -/
theorem timestamps_sound (tick : Tick) :
    Construction tick ∧ ∀ t, Made tick t → Arithmetic t := by
  constructor
  · exact construction tick
  · intro t made
    obtain ⟨u, rfl⟩ := made.sound
    exact u.raw_arithmetic

/-- The last second of a leap day. -/
theorem timestamps_sound_leapDay :
    Arithmetic ⟨2024, 2, 29, 86399000000000, Timezone.utc⟩ := by
  have tick : Tick := ⟨1, 1000000000, by rw [nanosecondsPerSecond]⟩
  apply (timestamps_sound tick).2
  apply Made.fromComponents
  exact (show fromComponents 2024 2 29 23 59 59 Timezone.utc = some (some _) by decide)

end RawTimestamp

end Dross
