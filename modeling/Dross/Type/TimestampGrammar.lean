import Dross.Type.Spelling
import Dross.Type.TimestampText

/-!
# The texts that are timestamps

A date, and behind it a time of day if there is one, with a fraction and an offset if
there are any. Every text that is read is one of these, and what is read is what it denotes.
-/

namespace Dross

/-- So many digits. -/
structure DigitText (width : Nat) where
  text : Text
  digits : AllDigits text
  length : text.length = width

def DigitText.value {width : Nat} (d : DigitText width) : Nat := natural d.text

/-- What an offset is written as: `Z`, or a sign, the hours and the minutes. -/
inductive ZoneText where
  | utc
  | offset (sign : Sign) (hours minutes : DigitText 2)

namespace ZoneText

def text : ZoneText → Text
  | utc => [ch 'Z']
  | offset sign hours minutes => Sign.text (some sign) ++ (hours.text ++ ch ':' :: minutes.text)

def InRange : ZoneText → Prop
  | utc => True
  | offset _ hours minutes => hours.value * 60 + minutes.value ≤ 23 * 60 + 59 ∧ minutes.value ≤ 59

/-- In minutes -/
def value : ZoneText → Int
  | utc => 0
  | offset .plus hours minutes => hours.value * 60 + minutes.value
  | offset .minus hours minutes => -(hours.value * 60 + minutes.value)

end ZoneText

structure TimeText where
  hour : DigitText 2
  minute : DigitText 2
  second : DigitText 2
  fraction : Option Text
  zone : Option ZoneText
  fractionDigits : ∀ digits ∈ fraction, AllDigits digits ∧ digits ≠ []

namespace TimeText

def text (w : TimeText) : Text :=
  w.hour.text ++ ch ':' :: (w.minute.text ++ ch ':' :: (w.second.text ++
    (Spelling.pointed w.fraction ++ (w.zone.map ZoneText.text).getD [])))

def InRange (w : TimeText) : Prop :=
  w.hour.value ≤ 23 ∧ w.minute.value ≤ 59 ∧ w.second.value ≤ 59 ∧ ∀ zone ∈ w.zone, zone.InRange

def seconds (w : TimeText) : Nat := w.hour.value * 3600 + w.minute.value * 60 + w.second.value

/-- The fraction in nanoseconds, without what is less than one. -/
def nanoseconds (w : TimeText) : Nat :=
  natural (w.fraction.getD []) * 10 ^ 9 / 10 ^ (w.fraction.getD []).length

def offset (w : TimeText) : Int := (w.zone.map ZoneText.value).getD 0

end TimeText

structure CivilText where
  year : DigitText 4
  month : DigitText 2
  day : DigitText 2
  time : Option TimeText

namespace CivilText

def text (w : CivilText) : Text :=
  w.year.text ++ ch '-' :: (w.month.text ++ ch '-' :: (w.day.text ++
    (w.time.map (fun time => ch 'T' :: time.text)).getD []))

def InRange (w : CivilText) : Prop :=
  Calendar.Exists w.year.value w.month.value w.day.value ∧ ∀ time ∈ w.time, time.InRange

/-- The seconds of the day, none at midnight. -/
def seconds (w : CivilText) : Nat := (w.time.map TimeText.seconds).getD 0

def nanoseconds (w : CivilText) : Nat := (w.time.map TimeText.nanoseconds).getD 0

def offset (w : CivilText) : Int := (w.time.map TimeText.offset).getD 0

/-- The seconds since 1970 of the civil time as it is written. -/
def civilSeconds (w : CivilText) : Int :=
  (Calendar.dayNumber w.year.value w.month.value w.day.value - Timestamp.epochDays) * 86400 +
    w.seconds

end CivilText

/-! ## Reading digits and separators -/

section Parts

theorem takeDigits_iff {width n : Nat} {s rest : Text} :
    takeDigits width s = some (n, rest) ↔
      ∃ d : DigitText width, s = d.text ++ rest ∧ d.value = n := by
  rw [takeDigits]
  constructor
  · intro read
    by_cases taken : (s.take width).length = width ∧ AllDigits (s.take width)
    · rw [if_pos taken] at read
      cases read
      exact ⟨⟨_, taken.2, taken.1⟩, (List.take_append_drop width s).symm, rfl⟩
    · rw [if_neg taken] at read
      cases read
  · rintro ⟨⟨text, digits, length⟩, rfl, rfl⟩
    rw [List.take_left' length, List.drop_left' length, if_pos ⟨length, digits⟩]
    rfl

theorem takeChar_iff {c : Char} {s rest : Text} : takeChar c s = some rest ↔ s = ch c :: rest := by
  cases s with
  | nil => simp [takeChar]
  | cons byte s => simp [takeChar]

theorem takeThree_iff {width first second third : Nat} {c : Char} {s rest : Text} :
    Timestamp.takeThree width c s = some ((first, second, third), rest) ↔
      ∃ (x : DigitText width) (y z : DigitText 2),
        s = x.text ++ ch c :: (y.text ++ ch c :: (z.text ++ rest)) ∧
          x.value = first ∧ y.value = second ∧ z.value = third := by
  simp only [Timestamp.takeThree, Option.bind_eq_bind, Option.bind_eq_some_iff, Prod.exists,
    Option.some.injEq, Prod.mk.injEq]
  constructor
  · rintro ⟨_, _, one, _, sep, _, _, two, _, sep', _, _, three, ⟨rfl, rfl, rfl⟩, rfl⟩
    obtain ⟨x, rfl, rfl⟩ := takeDigits_iff.mp one
    obtain rfl := takeChar_iff.mp sep
    obtain ⟨y, rfl, rfl⟩ := takeDigits_iff.mp two
    obtain rfl := takeChar_iff.mp sep'
    obtain ⟨z, rfl, rfl⟩ := takeDigits_iff.mp three
    exact ⟨x, y, z, rfl, rfl, rfl, rfl⟩
  · rintro ⟨x, y, z, rfl, rfl, rfl, rfl⟩
    exact ⟨_, _, takeDigits_iff.mpr ⟨x, rfl, rfl⟩, _, takeChar_iff.mpr rfl, _, _,
      takeDigits_iff.mpr ⟨y, rfl, rfl⟩, _, takeChar_iff.mpr rfl, _, _,
      takeDigits_iff.mpr ⟨z, rfl, rfl⟩, ⟨rfl, rfl, rfl⟩, rfl⟩

end Parts

/-! ## The offset -/

namespace ZoneText

theorem matchesZone_iff {s : Text} :
    Timestamp.matchesZone s = true ↔ ∃ zone : ZoneText, s = zone.text := by
  have signed (sign : Sign) : (∃ hours minutes : DigitText 2, s = (offset sign hours minutes).text) ↔
      s.head? = (Sign.text (some sign)).head? ∧
        ((takeDigits 2 s.tail).bind
          (fun hours => (takeChar ':' hours.2).bind (takeDigits 2))).any
            (fun minutes => minutes.2 == []) = true := by
    simp only [Option.any_eq_true, Option.bind_eq_some_iff, Prod.exists, beq_iff_eq]
    constructor
    · rintro ⟨hours, minutes, rfl⟩
      refine ⟨by cases sign <;> rfl, minutes.value, [], ⟨hours.value, ch ':' :: minutes.text, ?_, _,
        takeChar_iff.mpr rfl, takeDigits_iff.mpr ⟨minutes, by simp, rfl⟩⟩, rfl⟩
      exact takeDigits_iff.mpr ⟨hours, by cases sign <;> rfl, rfl⟩
    · rintro ⟨head, _, _, ⟨_, _, read, _, sep, read'⟩, rfl⟩
      obtain ⟨hours, tail, rfl⟩ := takeDigits_iff.mp read
      obtain rfl := takeChar_iff.mp sep
      obtain ⟨minutes, rfl, rfl⟩ := takeDigits_iff.mp read'
      refine ⟨hours, minutes, ?_⟩
      cases s with
      | nil => cases sign <;> cases head
      | cons c s =>
        rw [List.tail_cons] at tail
        cases sign <;> cases head <;> simp [text, Sign.text, tail]
  rw [Timestamp.matchesZone, Bool.or_eq_true, Bool.and_eq_true, Bool.or_eq_true, beq_iff_eq,
    beq_iff_eq, beq_iff_eq, or_and_right]
  have plus := signed .plus
  have minus := signed .minus
  simp only [Sign.text, List.head?_cons] at plus minus
  rw [← plus, ← minus]
  constructor
  · rintro (rfl | ⟨hours, minutes, rfl⟩ | ⟨hours, minutes, rfl⟩)
    · exact ⟨utc, rfl⟩
    · exact ⟨offset .plus hours minutes, rfl⟩
    · exact ⟨offset .minus hours minutes, rfl⟩
  · rintro ⟨utc | ⟨plus | minus, hours, minutes⟩, rfl⟩
    · exact Or.inl rfl
    · exact Or.inr (Or.inl ⟨hours, minutes, rfl⟩)
    · exact Or.inr (Or.inr ⟨hours, minutes, rfl⟩)

theorem text_ne_nil (zone : ZoneText) : zone.text ≠ [] := by
  rcases zone with _ | ⟨_ | _, hours, minutes⟩ <;> simp [text, Sign.text]

/-- The sign of an offset is no digit and no point. -/
theorem text_head (zone : ZoneText) {c : UInt8} (head : zone.text.head? = some c) :
    isDigit c = false ∧ c ≠ ch '.' := by
  rcases zone with _ | ⟨_ | _, hours, minutes⟩
  all_goals
    cases head
    decide

theorem takeOffset_text (hours minutes : DigitText 2) :
    takeOffset 2 (hours.text ++ ch ':' :: minutes.text) = some (hours.value, minutes.value) := by
  have first : takeDigits 2 (hours.text ++ ch ':' :: minutes.text) =
      some (hours.value, ch ':' :: minutes.text) := takeDigits_iff.mpr ⟨hours, rfl, rfl⟩
  have last : takeDigits 2 minutes.text = some (minutes.value, []) :=
    takeDigits_iff.mpr ⟨minutes, by rw [List.append_nil], rfl⟩
  simp [takeOffset, first, last]

theorem fromString_text (sign : Sign) (hours minutes : DigitText 2) :
    Timezone.fromString (offset sign hours minutes).text =
      if minutes.value > 59 then none
      else if inRange : -maxOffset ≤ (offset sign hours minutes).value ∧
          (offset sign hours minutes).value ≤ maxOffset then some ⟨_, inRange⟩
      else none := by
  have read := takeOffset_text hours minutes
  have others : (ch '+' ≠ ch 'Z' ∧ ch '+' ≠ ch 'z') ∧ ch '-' ≠ ch 'Z' ∧ ch '-' ≠ ch 'z' := by decide
  have differ : ch '+' ≠ ch '-' := by decide
  cases sign
  · simp [text, Sign.text, Timezone.fromString, read, value, others, differ]
    rfl
  · simp [text, Sign.text, Timezone.fromString, read, value, others]

/-- An offset of a sign, hours and minutes is read where RFC 3339 has it. -/
theorem fromString_offset {sign : Sign} {hours minutes : DigitText 2} {tz : Timezone} :
    Timezone.fromString (offset sign hours minutes).text = some tz ↔
      (offset sign hours minutes).InRange ∧ tz.offsetMinutes = (offset sign hours minutes).value := by
  have range : -maxOffset ≤ (offset sign hours minutes).value ∧
      (offset sign hours minutes).value ≤ maxOffset ↔
        hours.value * 60 + minutes.value ≤ 23 * 60 + 59 := by
    cases sign
    · simp only [value, maxOffset]
      omega
    · simp only [value, maxOffset]
      omega
  obtain ⟨total, inRange⟩ := tz
  rw [fromString_text, InRange]
  by_cases written : minutes.value > 59
  · rw [if_pos written]
    constructor
    · intro none
      cases none
    · rintro ⟨⟨-, small⟩, -⟩
      omega
  · rw [if_neg written, ← range]
    by_cases within : -maxOffset ≤ (offset sign hours minutes).value ∧
        (offset sign hours minutes).value ≤ maxOffset
    · rw [dif_pos within]
      simp only [Option.some.injEq, Timezone.mk.injEq]
      constructor
      · rintro rfl
        exact ⟨⟨within, Nat.le_of_not_gt written⟩, rfl⟩
      · rintro ⟨-, rfl⟩
        rfl
    · rw [dif_neg within]
      constructor
      · intro none
        cases none
      · rintro ⟨⟨inside, -⟩, -⟩
        exact absurd inside within

theorem fromString_iff {zone : ZoneText} {tz : Timezone} :
    Timezone.fromString zone.text = some tz ↔ zone.InRange ∧ tz.offsetMinutes = zone.value := by
  cases zone with
  | utc =>
    obtain ⟨minutes, inRange⟩ := tz
    simp [text, Timezone.fromString, InRange, value, Timezone.utc, eq_comm]
  | offset sign hours minutes => exact fromString_offset

theorem takeZone_iff {s : Text} {tz : Timezone} :
    Timestamp.takeZone s = some tz ↔ ∃ zone : Option ZoneText,
      s = (zone.map text).getD [] ∧ (∀ z ∈ zone, z.InRange) ∧
        tz.offsetMinutes = (zone.map value).getD 0 := by
  rw [Timestamp.takeZone]
  constructor
  · intro read
    by_cases empty : s = []
    · rw [if_pos empty] at read
      cases read
      exact ⟨none, empty, by simp, rfl⟩
    · rw [if_neg empty] at read
      by_cases matched : Timestamp.matchesZone s = true
      · rw [if_pos matched] at read
        obtain ⟨zone, rfl⟩ := matchesZone_iff.mp matched
        obtain ⟨inRange, minutes⟩ := fromString_iff.mp read
        exact ⟨some zone, rfl, by simpa using inRange, minutes⟩
      · rw [if_neg matched] at read
        cases read
  · rintro ⟨_ | zone, rfl, inRange, minutes⟩
    · obtain ⟨_, _⟩ := tz
      cases minutes
      rfl
    · rw [Option.map_some, Option.getD_some, if_neg zone.text_ne_nil,
        if_pos (matchesZone_iff.mpr ⟨zone, rfl⟩)]
      exact fromString_iff.mpr ⟨inRange zone rfl, minutes⟩

end ZoneText

/-! ## The fraction -/

namespace Timestamp

theorem takeFraction_some {s rest : Text} {fraction : Option Text}
    (read : takeFraction s = some (fraction, rest)) :
    s = Spelling.pointed fraction ++ rest ∧
      ∀ digits ∈ fraction, AllDigits digits ∧ digits ≠ [] := by
  rw [takeFraction] at read
  rcases point : takeChar '.' s with _ | after
  · simp only [point, Option.some.injEq, Prod.mk.injEq] at read
    obtain ⟨rfl, rfl⟩ := read
    exact ⟨rfl, by simp⟩
  · obtain rfl := takeChar_iff.mp point
    simp only [point] at read
    by_cases empty : after.takeWhile isDigit = []
    · rw [if_pos empty] at read
      cases read
    · rw [if_neg empty] at read
      cases read
      refine ⟨by simp [Spelling.pointed], ?_⟩
      rintro digits ⟨⟩
      exact ⟨Span.takeWhile_all, empty⟩

theorem takeFraction_pointed {fraction : Option Text} {rest : Text}
    (digits : ∀ digits ∈ fraction, AllDigits digits ∧ digits ≠ [])
    (stops : ∀ c, rest.head? = some c → isDigit c = false ∧ c ≠ ch '.') :
    takeFraction (Spelling.pointed fraction ++ rest) = some (fraction, rest) := by
  cases fraction with
  | none =>
    have none : takeChar '.' rest = none := takeChar_none (fun head => (stops _ head).2 rfl)
    simp [Spelling.pointed, takeFraction, none]
  | some text =>
    obtain ⟨all, nonempty⟩ := digits text rfl
    have taken := Span.takeWhile_stop all (fun c head => (stops c head).1)
    have left := Span.dropWhile_stop all (fun c head => (stops c head).1)
    simp [Spelling.pointed, takeFraction, taken, left, nonempty]

/-- Nine digits, cut or filled up, are the nanoseconds. -/
theorem fractionNanoseconds_eq {digits : Text} (all : AllDigits digits) :
    fractionNanoseconds digits = natural digits * 10 ^ 9 / 10 ^ digits.length := by
  rw [fractionNanoseconds, natural_append, natural_zeros, Nat.add_zero, List.length_replicate]
  have parts := natural_append (digits.take 9) (digits.drop 9)
  have below := natural_lt (AllDigits.of_subset (fun _ mem => List.mem_of_mem_drop mem) all :
    AllDigits (digits.drop 9))
  rw [List.take_append_drop] at parts
  rcases Nat.lt_or_ge digits.length 9 with short | long
  · rw [List.take_of_length_le short.le]
    have powers : 10 ^ 9 = 10 ^ (9 - digits.length) * 10 ^ digits.length := by
      rw [← pow_add, Nat.sub_add_cancel short.le]
    rw [powers, ← Nat.mul_assoc, Nat.mul_div_cancel _ (by positivity)]
  · have rest : (digits.drop 9).length = digits.length - 9 := List.length_drop
    have powers : 10 ^ digits.length = 10 ^ (digits.length - 9) * 10 ^ 9 := by
      rw [← pow_add, Nat.sub_add_cancel long]
    rw [rest] at parts below
    rw [List.length_take, Nat.min_eq_left long, Nat.sub_self, pow_zero, Nat.mul_one, powers,
      Nat.mul_div_mul_right _ _ (by positivity), parts, Nat.mul_comm,
      Nat.mul_add_div (by positivity), Nat.div_eq_of_lt below, Nat.add_zero]

theorem nanoseconds_lt {digits : Text} (all : AllDigits digits) :
    natural digits * 10 ^ 9 / 10 ^ digits.length < nanosecondsPerSecond := by
  rw [Nat.div_lt_iff_lt_mul (by positivity), Nat.mul_comm]
  exact Nat.mul_lt_mul_of_pos_left (natural_lt all) (by decide)

/-! ## Dates and times -/

theorem fromComponents_iff {year month day hour minute second : Nat} {tz : Timezone}
    {t : Timestamp} :
    fromComponents year month day hour minute second tz = some t ↔
      (year ≤ 9999 ∧ Calendar.Exists year month day ∧ hour ≤ 23 ∧ minute ≤ 59 ∧ second ≤ 59) ∧
        t.date.year = year ∧ t.date.month = month ∧ t.date.day = day ∧
          t.sinceMidnight = (hour * 3600 + minute * 60 + second) * nanosecondsPerSecond ∧
            t.timezone = tz := by
  obtain ⟨⟨y, m, d, ok⟩, sinceMidnight, timezone, withinDay⟩ := t
  have last := Calendar.lastDay_le year month
  rw [fromComponents]
  by_cases date : (year : Int) < 0 ∨ (year : Int) > 9999 ∨ (month : Int) < 1 ∨ (month : Int) > 12 ∨
      (day : Int) < 1 ∨ (day : Int) > 31
  · rw [dif_pos date]
    constructor
    · intro none
      cases none
    · rintro ⟨⟨small, exist, -⟩, -⟩
      unfold Calendar.Exists at exist
      omega
  · rw [dif_neg date]
    by_cases time : (hour : Int) < 0 ∨ (hour : Int) > 23 ∨ (minute : Int) < 0 ∨
        (minute : Int) > 59 ∨ (second : Int) < 0 ∨ (second : Int) > 59
    · rw [dif_pos time]
      constructor
      · intro none
        cases none
      · rintro ⟨⟨-, -, small⟩, -⟩
        omega
    · rw [dif_neg time]
      have seconds : ((hour : Int) * 3600 + minute * 60 + second).toNat =
          hour * 3600 + minute * 60 + second := by omega
      simp only [Int.toNat_natCast, seconds]
      by_cases exist : Calendar.Exists year month day
      · rw [dif_pos exist]
        simp only [Option.some.injEq, Timestamp.mk.injEq, DatePart.mk.injEq]
        constructor
        · rintro ⟨⟨rfl, rfl, rfl⟩, rfl, rfl⟩
          exact ⟨⟨by omega, exist, by omega⟩, rfl, rfl, rfl, rfl, rfl⟩
        · rintro ⟨-, rfl, rfl, rfl, rfl, rfl⟩
          exact ⟨⟨rfl, rfl, rfl⟩, rfl, rfl⟩
      · rw [dif_neg exist]
        constructor
        · intro none
          cases none
        · rintro ⟨⟨-, exist', -⟩, -⟩
          exact absurd exist' exist

theorem addNanoseconds_iff {t u : Timestamp} {count : Nat}
    (whole : t.sinceMidnight % nanosecondsPerSecond = 0) (below : count < nanosecondsPerSecond) :
    t.addNanoseconds count = some u ↔
      u.date = t.date ∧ u.sinceMidnight = t.sinceMidnight + count ∧ u.timezone = t.timezone := by
  have within : t.sinceMidnight + count < nanosecondsPerDay := by
    have inDay := t.withinDay
    unfold nanosecondsPerDay nanosecondsPerSecond at *
    omega
  obtain ⟨date, sinceMidnight, timezone, withinDay⟩ := u
  simp only [addNanoseconds, dif_pos within, Option.some.injEq, Timestamp.mk.injEq]
  constructor
  · rintro ⟨date, since, zone⟩
    exact ⟨date.symm, since.symm, zone.symm⟩
  · rintro ⟨date, since, zone⟩
    exact ⟨date.symm, since.symm, zone.symm⟩

/-! ## Whole texts -/

/-- What is read of a text: the fields that are written, and midnight and UTC for those
that are not. -/
structure Reads (w : CivilText) (t : Timestamp) : Prop where
  year : t.date.year = w.year.value
  month : t.date.month = w.month.value
  day : t.date.day = w.day.value
  sinceMidnight : t.sinceMidnight = w.seconds * nanosecondsPerSecond + w.nanoseconds
  offset : t.timezone.offsetMinutes = w.offset

end Timestamp

namespace TimeText

variable {w : TimeText}

theorem nanoseconds_eq (w : TimeText) :
    w.nanoseconds = (w.fraction.map Timestamp.fractionNanoseconds).getD 0 := by
  rw [nanoseconds]
  cases fraction : w.fraction with
  | none => simp
  | some digits =>
    rw [Option.map_some, Option.getD_some, Option.getD_some,
      Timestamp.fractionNanoseconds_eq (w.fractionDigits digits fraction).1]

theorem nanoseconds_lt (w : TimeText) : w.nanoseconds < nanosecondsPerSecond := by
  apply Timestamp.nanoseconds_lt
  cases fraction : w.fraction with
  | none => exact AllDigits.nil
  | some digits => exact (w.fractionDigits digits fraction).1

/-- The sign of the offset ends the digits of the fraction. -/
theorem zone_stops (w : TimeText) (c : UInt8)
    (head : ((w.zone.map ZoneText.text).getD []).head? = some c) :
    isDigit c = false ∧ c ≠ ch '.' := by
  cases zone : w.zone with
  | none => simp [zone] at head
  | some zone' =>
    rw [zone] at head
    exact zone'.text_head head

end TimeText

namespace Timestamp

theorem takeClock_iff {s : Text} {fraction : Option Text} {hour minute second : Nat}
    {tz : Timezone} :
    (∃ rest last, takeThree 2 ':' s = some ((hour, minute, second), rest) ∧
      takeFraction rest = some (fraction, last) ∧ takeZone last = some tz) ↔
    ∃ w : TimeText, s = w.text ∧ w.hour.value = hour ∧ w.minute.value = minute ∧
      w.second.value = second ∧ w.fraction = fraction ∧ (∀ zone ∈ w.zone, zone.InRange) ∧
        tz.offsetMinutes = w.offset := by
  constructor
  · rintro ⟨rest, last, clock, point, zone⟩
    obtain ⟨x, y, z, rfl, rfl, rfl, rfl⟩ := takeThree_iff.mp clock
    obtain ⟨rfl, digits⟩ := takeFraction_some point
    obtain ⟨written, rfl, inRange, offset⟩ := ZoneText.takeZone_iff.mp zone
    exact ⟨⟨x, y, z, fraction, written, digits⟩, rfl, rfl, rfl, rfl, rfl, inRange, offset⟩
  · rintro ⟨w, rfl, rfl, rfl, rfl, rfl, inRange, offset⟩
    exact ⟨_, _, takeThree_iff.mpr ⟨w.hour, w.minute, w.second, rfl, rfl, rfl, rfl⟩,
      takeFraction_pointed w.fractionDigits w.zone_stops,
      ZoneText.takeZone_iff.mpr ⟨w.zone, rfl, inRange, offset⟩⟩

theorem fromComponents_time {w : TimeText} {year month day : Nat} {tz : Timezone} {t : Timestamp} :
    (∃ result, fromComponents year month day w.hour.value w.minute.value w.second.value tz =
        some result ∧ result.addNanoseconds w.nanoseconds = some t) ↔
      (year ≤ 9999 ∧ Calendar.Exists year month day ∧ w.hour.value ≤ 23 ∧ w.minute.value ≤ 59 ∧
        w.second.value ≤ 59) ∧ t.date.year = year ∧ t.date.month = month ∧ t.date.day = day ∧
          t.sinceMidnight = w.seconds * nanosecondsPerSecond + w.nanoseconds ∧ t.timezone = tz := by
  constructor
  · rintro ⟨result, components, added⟩
    obtain ⟨valid, year, month, day, midnight, zone⟩ := fromComponents_iff.mp components
    have whole : result.sinceMidnight % nanosecondsPerSecond = 0 := by
      rw [midnight, Nat.mul_mod_left]
    obtain ⟨date, since, zone'⟩ := (addNanoseconds_iff whole w.nanoseconds_lt).mp added
    rw [date, since, zone']
    exact ⟨valid, year, month, day, by rw [midnight, TimeText.seconds], zone⟩
  · rintro ⟨valid, year, month, day, since, zone⟩
    have within : w.seconds * nanosecondsPerSecond < nanosecondsPerDay := by
      unfold TimeText.seconds nanosecondsPerDay nanosecondsPerSecond
      omega
    have midnight : w.seconds * nanosecondsPerSecond % nanosecondsPerSecond = 0 :=
      Nat.mul_mod_left _ _
    refine ⟨⟨t.date, w.seconds * nanosecondsPerSecond, t.timezone, within⟩, ?_, ?_⟩
    · exact fromComponents_iff.mpr ⟨valid, year, month, day, rfl, zone⟩
    · exact (addNanoseconds_iff midnight w.nanoseconds_lt).mpr ⟨rfl, since, rfl⟩

theorem year_le (w : CivilText) : w.year.value ≤ 9999 := by
  have below := natural_lt w.year.digits
  rw [w.year.length] at below
  exact Nat.le_of_lt_succ below

theorem timezone_eq {tz other : Timezone} :
    tz = other ↔ tz.offsetMinutes = other.offsetMinutes := by
  obtain ⟨minutes, -⟩ := tz
  obtain ⟨minutes', -⟩ := other
  simp

/-- A date without a time is midnight in UTC. -/
theorem fromString_date {x : DigitText 4} {y z : DigitText 2} {t : Timestamp} :
    fromString (CivilText.mk x y z none).text = some t ↔
      (CivilText.mk x y z none).InRange ∧ t.Reads (CivilText.mk x y z none) := by
  have date : takeThree 4 '-' (CivilText.mk x y z none).text =
      some ((x.value, y.value, z.value), []) := takeThree_iff.mpr ⟨x, y, z, rfl, rfl, rfl, rfl⟩
  have small := year_le (CivilText.mk x y z none)
  have components := @fromComponents_iff x.value y.value z.value 0 0 0 Timezone.utc t
  rw [Nat.cast_zero] at components
  rw [fromString, date]
  simp only [Option.bind_eq_bind, Option.bind_some, if_true, components, timezone_eq]
  constructor
  · rintro ⟨⟨-, exist, -⟩, year, month, day, since, zone⟩
    exact ⟨⟨exist, by simp⟩, year, month, day, by simpa [CivilText.seconds, CivilText.nanoseconds],
      zone⟩
  · rintro ⟨⟨exist, -⟩, reads⟩
    have since := reads.sinceMidnight
    simp only [CivilText.seconds, CivilText.nanoseconds, Option.map_none, Option.getD_none] at since
    exact ⟨⟨small, exist, by omega⟩, reads.year, reads.month, reads.day, by simpa using since,
      reads.offset⟩

/-- The last step of `from_string`: the fraction is added where there is one. -/
theorem fromString_clock {x : DigitText 4} {y z : DigitText 2} {s : Text} {t : Timestamp} :
    fromString (x.text ++ ch '-' :: (y.text ++ ch '-' :: (z.text ++ ch 'T' :: s))) = some t ↔
      ∃ (w : TimeText) (tz : Timezone), s = w.text ∧ (∀ zone ∈ w.zone, zone.InRange) ∧
        tz.offsetMinutes = w.offset ∧
          ∃ result, fromComponents x.value y.value z.value w.hour.value w.minute.value
            w.second.value tz = some result ∧ result.addNanoseconds w.nanoseconds = some t := by
  have date : takeThree 4 '-' (x.text ++ ch '-' :: (y.text ++ ch '-' :: (z.text ++ ch 'T' :: s))) =
      some ((x.value, y.value, z.value), ch 'T' :: s) :=
    takeThree_iff.mpr ⟨x, y, z, rfl, rfl, rfl, rfl⟩
  rw [fromString, date]
  simp only [Option.bind_eq_bind, Option.bind_some, reduceCtorEq, if_false, takeChar_cons]
  constructor
  · intro read
    simp only [Option.bind_eq_some_iff, Prod.exists] at read
    obtain ⟨hour, minute, second, rest, clock, fraction, last, point, tz, zone, result, components,
      added⟩ := read
    obtain ⟨w, rfl, rfl, rfl, rfl, rfl, inRange, offset⟩ :=
      takeClock_iff.mp ⟨rest, last, clock, point, zone⟩
    refine ⟨w, tz, rfl, inRange, offset, result, components, ?_⟩
    rw [w.nanoseconds_eq]
    cases fraction : w.fraction with
    | none =>
      rw [fraction] at added
      rw [Option.map_none, Option.getD_none, addNanoseconds_zero]
      exact added
    | some digits =>
      rw [fraction] at added
      exact added
  · rintro ⟨w, tz, rfl, inRange, offset, result, components, added⟩
    obtain ⟨rest, last, clock, point, zone⟩ := takeClock_iff.mpr
      ⟨w, rfl, rfl, rfl, rfl, rfl, inRange, offset⟩
    simp only [clock, point, zone, components, Option.bind_some]
    rw [w.nanoseconds_eq] at added
    cases fraction : w.fraction with
    | none =>
      rw [fraction, Option.map_none, Option.getD_none, addNanoseconds_zero] at added
      exact added
    | some digits =>
      rw [fraction] at added
      exact added

theorem fromString_time {x : DigitText 4} {y z : DigitText 2} {s : Text} {t : Timestamp} :
    fromString (x.text ++ ch '-' :: (y.text ++ ch '-' :: (z.text ++ ch 'T' :: s))) = some t ↔
      ∃ w : TimeText, s = w.text ∧ (CivilText.mk x y z w).InRange ∧
        t.Reads (CivilText.mk x y z w) := by
  rw [fromString_clock]
  constructor
  · rintro ⟨w, tz, rfl, inRange, offset, read⟩
    obtain ⟨⟨-, exist, clock⟩, year, month, day, since, rfl⟩ := fromComponents_time.mp read
    refine ⟨w, rfl, ⟨exist, ?_⟩, year, month, day, since, offset⟩
    rintro _ ⟨⟩
    exact ⟨clock.1, clock.2.1, clock.2.2, inRange⟩
  · rintro ⟨w, rfl, ⟨exist, time⟩, reads⟩
    obtain ⟨hour, minute, second, inRange⟩ := time w rfl
    refine ⟨w, t.timezone, rfl, inRange, reads.offset, fromComponents_time.mpr ?_⟩
    exact ⟨⟨year_le (CivilText.mk x y z w), exist, hour, minute, second⟩, reads.year, reads.month,
      reads.day, reads.sinceMidnight, rfl⟩

/-- What is read of a text is what one of the forms denotes. -/
theorem fromString_iff {s : Text} {t : Timestamp} :
    fromString s = some t ↔ ∃ w : CivilText, w.text = s ∧ w.InRange ∧ t.Reads w := by
  constructor
  · intro read
    obtain ⟨⟨⟨first, second, third⟩, rest⟩, date, later⟩ := Option.bind_eq_some_iff.mp read
    obtain ⟨x, y, z, rfl, rfl, rfl, rfl⟩ := takeThree_iff.mp date
    by_cases empty : rest = []
    · subst empty
      obtain ⟨inRange, reads⟩ := fromString_date.mp read
      exact ⟨⟨x, y, z, none⟩, rfl, inRange, reads⟩
    · simp only [if_neg empty] at later
      obtain ⟨s, letter, -⟩ := Option.bind_eq_some_iff.mp later
      obtain rfl := takeChar_iff.mp letter
      obtain ⟨w, rfl, inRange, reads⟩ := fromString_time.mp read
      exact ⟨⟨x, y, z, w⟩, rfl, inRange, reads⟩
  · rintro ⟨⟨x, y, z, _ | w⟩, rfl, inRange, reads⟩
    · exact fromString_date.mpr ⟨inRange, reads⟩
    · exact fromString_time.mpr ⟨w, rfl, inRange, reads⟩

theorem offset_inRange {w : CivilText} (inRange : w.InRange) :
    -maxOffset ≤ w.offset ∧ w.offset ≤ maxOffset := by
  obtain ⟨x, y, z, _ | time⟩ := w
  · exact Timezone.utc.inRange
  · have zones := (inRange.2 time rfl).2.2.2
    have offset : (CivilText.mk x y z time).offset = time.offset := rfl
    rw [offset, TimeText.offset]
    cases zone : time.zone with
    | none => exact Timezone.utc.inRange
    | some written =>
      have small := zones written zone
      rcases written with _ | ⟨_ | _, hours, minutes⟩
      · exact Timezone.utc.inRange
      · simp only [ZoneText.InRange, Option.map_some, Option.getD_some, ZoneText.value,
          maxOffset] at small ⊢
        omega
      · simp only [ZoneText.InRange, Option.map_some, Option.getD_some, ZoneText.value,
          maxOffset] at small ⊢
        omega

theorem seconds_lt {w : CivilText} (inRange : w.InRange) :
    w.seconds < 86400 ∧ w.nanoseconds < nanosecondsPerSecond := by
  obtain ⟨x, y, z, _ | time⟩ := w
  · exact ⟨(by decide : 0 < 86400), (by decide : 0 < nanosecondsPerSecond)⟩
  · obtain ⟨hour, minute, second, -⟩ := inRange.2 time rfl
    refine ⟨?_, time.nanoseconds_lt⟩
    have seconds : (CivilText.mk x y z time).seconds = time.seconds := rfl
    rw [seconds, TimeText.seconds]
    omega

/-- Every text in range denotes a timestamp. -/
theorem exists_reads {w : CivilText} (inRange : w.InRange) : ∃ t : Timestamp, t.Reads w := by
  obtain ⟨seconds, below⟩ := seconds_lt inRange
  have within : w.seconds * nanosecondsPerSecond + w.nanoseconds < nanosecondsPerDay := by
    unfold nanosecondsPerDay nanosecondsPerSecond at *
    omega
  exact ⟨⟨⟨_, _, _, year_le w, inRange.1⟩, _, ⟨_, offset_inRange inRange⟩, within⟩,
    rfl, rfl, rfl, rfl, rfl⟩

namespace Reads

variable {w : CivilText} {t : Timestamp}

theorem whole (reads : t.Reads w) (inRange : w.InRange) :
    t.sinceMidnight / nanosecondsPerSecond = w.seconds ∧ t.subseconds = w.nanoseconds := by
  have below := (seconds_lt inRange).2
  have positive : 0 < nanosecondsPerSecond := by decide
  rw [subseconds, reads.sinceMidnight, Nat.mul_comm, Nat.mul_add_div positive, Nat.mul_add_mod,
    Nat.div_eq_of_lt below, Nat.mod_eq_of_lt below]
  exact ⟨Nat.add_zero _, rfl⟩

theorem clock (reads : t.Reads w) (inRange : w.InRange) :
    (t.hour, t.minute, t.second) =
      (w.time.map (fun time => (time.hour.value, time.minute.value, time.second.value))).getD
        (0, 0, 0) := by
  have seconds := (reads.whole inRange).1
  have parts : t.hour = w.seconds / 3600 ∧ t.minute = w.seconds / 60 % 60 ∧
      t.second = w.seconds % 60 := by
    unfold hour minute second nanosecondsPerSecond at *
    omega
  rw [parts.1, parts.2.1, parts.2.2]
  obtain ⟨x, y, z, _ | time⟩ := w
  · simp [CivilText.seconds]
  · obtain ⟨hour, minute, second, -⟩ := inRange.2 time rfl
    have total : (CivilText.mk x y z time).seconds = time.seconds := rfl
    rw [total, TimeText.seconds]
    simp only [Option.map_some, Option.getD_some, Prod.mk.injEq]
    omega

theorem instant (reads : t.Reads w) (inRange : w.InRange) :
    t.instant = (w.civilSeconds - w.offset * 60, w.nanoseconds) := by
  obtain ⟨seconds, nanoseconds⟩ := reads.whole inRange
  have division : (t.sinceMidnight : Int) / nanosecondsPerSecond =
      ((t.sinceMidnight / nanosecondsPerSecond : Nat) : Int) := rfl
  rw [Timestamp.instant, localSeconds, CivilText.civilSeconds, division, seconds, nanoseconds,
    reads.year, reads.month, reads.day, reads.offset]

end Reads

/-- Exactly the texts of the forms that are in range are timestamps. Each is the instant of
its civil time less its offset, and has the local fields that are written. -/
theorem fromString_exact (s : Text) :
    ((∃ t, fromString s = some t) ↔ ∃ w : CivilText, w.text = s ∧ w.InRange) ∧
    ∀ w : CivilText, w.text = s → w.InRange → ∃ t, fromString s = some t ∧
      (t.date.year, t.date.month, t.date.day) = (w.year.value, w.month.value, w.day.value) ∧
      (t.hour, t.minute, t.second) =
        (w.time.map (fun time => (time.hour.value, time.minute.value, time.second.value))).getD
          (0, 0, 0) ∧
      t.subseconds = w.nanoseconds ∧ t.timezone.offsetMinutes = w.offset ∧
      t.instant = (w.civilSeconds - w.offset * 60, w.nanoseconds) := by
  constructor
  · constructor
    · rintro ⟨t, read⟩
      obtain ⟨w, text, inRange, -⟩ := fromString_iff.mp read
      exact ⟨w, text, inRange⟩
    · rintro ⟨w, text, inRange⟩
      obtain ⟨t, reads⟩ := exists_reads inRange
      exact ⟨t, fromString_iff.mpr ⟨w, text, inRange, reads⟩⟩
  · intro w text inRange
    obtain ⟨t, reads⟩ := exists_reads inRange
    refine ⟨t, fromString_iff.mpr ⟨w, text, inRange, reads⟩, ?_, reads.clock inRange,
      (reads.whole inRange).2, reads.offset, reads.instant inRange⟩
    rw [reads.year, reads.month, reads.day]

/-- Nine digits of ten, and an offset that goes back into the day before. -/
theorem fromString_exact_fraction :
    ∃ t, fromString ("2024-02-29T00:30:00.1234567899+01:00".toList.map ch) = some t ∧
      t.subseconds = 123456789 ∧ t.timezone.offsetMinutes = 60 := by
  let w : CivilText :=
    { year := ⟨"2024".toList.map ch, by decide, by decide⟩
      month := ⟨"02".toList.map ch, by decide, by decide⟩
      day := ⟨"29".toList.map ch, by decide, by decide⟩
      time := some
        { hour := ⟨"00".toList.map ch, by decide, by decide⟩
          minute := ⟨"30".toList.map ch, by decide, by decide⟩
          second := ⟨"00".toList.map ch, by decide, by decide⟩
          fraction := some ("1234567899".toList.map ch)
          zone := some (.offset .plus ⟨"01".toList.map ch, by decide, by decide⟩
            ⟨"00".toList.map ch, by decide, by decide⟩)
          fractionDigits := by
            rintro digits ⟨⟩
            decide } }
  have inRange : w.InRange := by
    refine ⟨by decide, ?_⟩
    rintro time ⟨⟩
    refine ⟨by decide, by decide, by decide, ?_⟩
    rintro zone ⟨⟩
    exact ⟨by decide, by decide⟩
  obtain ⟨t, read, -, -, nanoseconds, offset, -⟩ := (fromString_exact _).2 w rfl inRange
  exact ⟨t, read, nanoseconds.trans (by decide), offset.trans (by decide)⟩

end Timestamp

end Dross
