import Dross.Type.CanonicalText
import Dross.Type.Timestamp

/-!
# Timestamps as text

What a timestamp writes is read back part by part: each number is as wide as
its reader takes, and the zeros dropped from the fraction are filled in again.
-/

namespace Dross

/-! ## Numbers of a fixed width -/

section ZeroFilled

variable {width n : Nat}

theorem zeroFilled_digits : AllDigits (zeroFilled width n) :=
  AllDigits.append.mpr ⟨AllDigits.replicate _, (countText_digits n).1⟩

theorem zeroFilled_length (positive : 0 < width) (fits : n < 10 ^ width) :
    (zeroFilled width n).length = width := by
  have short := countText_length positive fits
  rw [zeroFilled, List.length_append, List.length_replicate]
  omega

theorem natural_zeroFilled : natural (zeroFilled width n) = n := by
  rw [zeroFilled, natural_append, natural_zeros, (countText_digits n).2]
  omega

theorem takeDigits_zeroFilled (positive : 0 < width) (fits : n < 10 ^ width) (rest : Text) :
    takeDigits width (zeroFilled width n ++ rest) = some (n, rest) := by
  have length := zeroFilled_length positive fits
  rw [takeDigits, List.take_left' length, List.drop_left' length, natural_zeroFilled,
    if_pos ⟨length, zeroFilled_digits⟩]

end ZeroFilled

@[simp] theorem takeChar_cons (c : Char) (rest : Text) : takeChar c (ch c :: rest) = some rest :=
  if_pos rfl

theorem takeChar_none {c : Char} {s : Text} (other : s.head? ≠ some (ch c)) : takeChar c s = none :=
  if_neg other

/-! ## The offset -/

namespace Timezone

theorem takeOffset_written {hours minutes : Nat} (hh : hours < 100) (mm : minutes < 100) :
    takeOffset 2 (zeroFilled 2 hours ++ ch ':' :: zeroFilled 2 minutes) =
      some (hours, minutes) := by
  have last := @takeDigits_zeroFilled 2 _ (by omega) mm []
  rw [List.append_nil] at last
  simp [takeOffset, takeDigits_zeroFilled (show 0 < 2 by omega) hh, last]

theorem format_signed {tz : Timezone} (offset : tz.offsetMinutes ≠ 0) :
    tz.format = (if tz.offsetMinutes ≥ 0 then ch '+' else ch '-') ::
      (zeroFilled 2 (tz.offsetMinutes.natAbs / 60) ++
        ch ':' :: zeroFilled 2 (tz.offsetMinutes.natAbs % 60)) :=
  if_neg offset

/-- Reading a sign, hours and minutes. -/
theorem fromString_signed {sign : UInt8} {s : Text} {hours minutes : Nat} {total : Int}
    (known : sign = ch '+' ∨ sign = ch '-') (read : takeOffset 2 s = some (hours, minutes))
    (range : minutes ≤ 59)
    (value : (if sign = ch '-' then -((hours : Int) * 60 + minutes) else hours * 60 + minutes) = total)
    (inRange : -maxOffset ≤ total ∧ total ≤ maxOffset) :
    fromString (sign :: s) = some ⟨total, inRange⟩ := by
  have nonempty : s ≠ [] := by
    rintro rfl
    cases read
  have offset : ¬ (sign :: s = [ch 'Z'] ∨ sign :: s = [ch 'z']) := by
    simp [nonempty]
  have signed : (sign :: s).head? = some (ch '+') ∨ (sign :: s).head? = some (ch '-') := by
    simpa using known
  rw [fromString, if_neg offset, if_pos signed, List.tail_cons, read]
  simp only [Option.some_or, if_neg (Nat.not_lt.mpr range), List.head?_cons, Option.some.injEq,
    value, dif_pos inRange]

theorem fromString_format (tz : Timezone) : fromString tz.format = some tz := by
  by_cases zero : tz.offsetMinutes = 0
  · obtain ⟨minutes, inRange⟩ := tz
    obtain rfl : minutes = 0 := zero
    rfl
  · have bounds := tz.inRange
    unfold maxOffset at bounds
    have read := takeOffset_written (show tz.offsetMinutes.natAbs / 60 < 100 by omega)
      (show tz.offsetMinutes.natAbs % 60 < 100 by omega)
    rw [format_signed zero]
    by_cases east : tz.offsetMinutes ≥ 0
    · rw [if_pos east]
      refine fromString_signed (Or.inl rfl) read (by omega) ?_ tz.inRange
      rw [if_neg (by decide)]
      omega
    · rw [if_neg east]
      refine fromString_signed (Or.inr rfl) read (by omega) ?_ tz.inRange
      rw [if_pos rfl]
      omega

/-- Every offset written is in the form that may end a timestamp. -/
theorem matchesZone_format (tz : Timezone) : Timestamp.matchesZone tz.format = true := by
  by_cases zero : tz.offsetMinutes = 0
  · rw [format, if_pos zero]
    rfl
  · have bounds : tz.offsetMinutes.natAbs ≤ 1439 := by
      have := tz.inRange
      unfold maxOffset at this
      omega
    have last := @takeDigits_zeroFilled 2 _ (by omega)
      (show tz.offsetMinutes.natAbs % 60 < 10 ^ 2 by omega) []
    rw [List.append_nil] at last
    have sign : (if tz.offsetMinutes ≥ 0 then ch '+' else ch '-') = ch '+' ∨
        (if tz.offsetMinutes ≥ 0 then ch '+' else ch '-') = ch '-' := by
      split <;> simp
    rw [format_signed zero]
    unfold Timestamp.matchesZone
    rw [List.tail_cons, takeDigits_zeroFilled (by omega) (by omega)]
    rcases sign with plus | minus
    · simp [plus, last]
    · simp [minus, last]

theorem takeZone_format (tz : Timezone) : Timestamp.takeZone tz.format = some tz := by
  have nonempty : tz.format ≠ [] := by
    intro empty
    have read := fromString_format tz
    rw [empty] at read
    cases read
  rw [Timestamp.takeZone, if_neg nonempty, if_pos (matchesZone_format tz), fromString_format]

/-- An offset starts with its sign or is the letter for UTC. -/
theorem format_head (tz : Timezone) :
    tz.format.head? = some (ch 'Z') ∨ tz.format.head? = some (ch '+') ∨
      tz.format.head? = some (ch '-') := by
  by_cases zero : tz.offsetMinutes = 0
  · simp [format, zero]
  · rw [format_signed zero]
    by_cases east : tz.offsetMinutes ≥ 0
    · simp [east]
    · simp [east]

end Timezone

namespace Timestamp

/-! ## The fraction -/

theorem fraction_refilled {fraction : Nat} (below : fraction < nanosecondsPerSecond) :
    fractionNanoseconds ((zeroFilled 9 fraction).rdropWhile (fun c => c == ch '0')) = fraction := by
  have length : (zeroFilled 9 fraction).length = 9 := zeroFilled_length (by omega) below
  obtain ⟨dropped, whole, zeros⟩ :=
    Span.rdropWhile_append (p := fun c => c == ch '0') (zeroFilled 9 fraction)
  generalize (zeroFilled 9 fraction).rdropWhile (fun c => c == ch '0') = kept at *
  have sum : kept.length + dropped.length = 9 := by
    rw [← length, whole, List.length_append]
  have refill : dropped = List.replicate (9 - kept.length) (ch '0') := by
    rw [show 9 - kept.length = dropped.length by omega]
    exact List.eq_replicate_of_mem (fun c mem => by simpa using zeros c mem)
  rw [fractionNanoseconds, List.take_of_length_le (by omega), ← refill, ← whole,
    natural_zeroFilled]

/-- A fraction that is not zero leaves a digit. -/
theorem fraction_kept {fraction : Nat} (nonzero : fraction ≠ 0) :
    (zeroFilled 9 fraction).rdropWhile (fun c => c == ch '0') ≠ [] := by
  intro empty
  have zeros := List.rdropWhile_eq_nil_iff.mp empty
  have all : zeroFilled 9 fraction = List.replicate (zeroFilled 9 fraction).length (ch '0') :=
    List.eq_replicate_of_mem (fun c mem => by simpa using zeros c mem)
  have value := @natural_zeroFilled 9 fraction
  rw [all, natural_zeros] at value
  exact nonzero value.symm

theorem takeFraction_written {fraction : Nat} {rest : Text} {c : UInt8}
    (head : rest.head? = some c) (point : c ≠ ch '.') (stop : isDigit c = false) :
    takeFraction (fractionText fraction ++ rest) =
      some (if fraction = 0 then none
        else some ((zeroFilled 9 fraction).rdropWhile (fun c => c == ch '0')), rest) := by
  by_cases zero : fraction = 0
  · have other : rest.head? ≠ some (ch '.') := by
      rw [head]
      exact fun same => point (Option.some.inj same)
    rw [fractionText, if_pos zero, if_pos zero, List.nil_append, takeFraction, takeChar_none other]
  · have digits : ∀ d ∈ (zeroFilled 9 fraction).rdropWhile (fun c => c == ch '0'),
        isDigit d = true :=
      fun d mem => zeroFilled_digits d ((List.rdropWhile_prefix _ _).subset mem)
    have stops : ∀ d, rest.head? = some d → isDigit d = false := by
      intro d hd
      rw [head] at hd
      exact Option.some.inj hd ▸ stop
    rw [fractionText, if_neg zero, if_neg zero, List.cons_append, takeFraction, takeChar_cons]
    simp only [Span.takeWhile_stop digits stops, Span.dropWhile_stop digits stops,
      if_neg (fraction_kept zero)]

/-! ## The whole text -/

theorem hour_lt (t : Timestamp) : t.hour < 24 := by
  have := t.withinDay
  unfold hour nanosecondsPerDay nanosecondsPerSecond at *
  omega

theorem minute_lt (t : Timestamp) : t.minute < 60 := Nat.mod_lt _ (by omega)

theorem second_lt (t : Timestamp) : t.second < 60 := Nat.mod_lt _ (by omega)

/-- The time of day is its parts. -/
theorem parts (t : Timestamp) : (t.hour * 3600 + t.minute * 60 + t.second) * nanosecondsPerSecond +
    t.subseconds = t.sinceMidnight := by
  have := t.withinDay
  unfold hour minute second subseconds nanosecondsPerDay nanosecondsPerSecond at *
  omega

/-- The timestamp without its fraction. -/
def wholeSeconds (t : Timestamp) : Timestamp :=
  { t with
    sinceMidnight := (t.hour * 3600 + t.minute * 60 + t.second) * nanosecondsPerSecond
    withinDay := by
      have := t.withinDay
      have := t.parts
      omega }

theorem fromComponents_parts (t : Timestamp) :
    fromComponents t.date.year t.date.month t.date.day t.hour t.minute t.second t.timezone =
      some t.wholeSeconds := by
  obtain ⟨year, exists_⟩ := t.date.ok
  obtain ⟨month, month', day, day'⟩ := exists_
  have last := Calendar.lastDay_le t.date.year t.date.month
  have hh := t.hour_lt
  have mm := t.minute_lt
  have ss := t.second_lt
  have time : ((t.hour : Int) * 3600 + t.minute * 60 + t.second).toNat =
      t.hour * 3600 + t.minute * 60 + t.second := by omega
  rw [fromComponents, dif_neg (by omega), dif_neg (by omega), dif_pos (by simpa using t.date.ok.2)]
  simp only [Int.toNat_natCast, time]
  rfl

theorem addNanoseconds_zero (t : Timestamp) : t.addNanoseconds 0 = some t :=
  dif_pos t.withinDay

theorem addNanoseconds_subseconds (t : Timestamp) :
    t.wholeSeconds.addNanoseconds t.subseconds = some t := by
  have whole : t.wholeSeconds.sinceMidnight + t.subseconds = t.sinceMidnight := t.parts
  rw [addNanoseconds, dif_pos (by rw [whole]; exact t.withinDay)]
  obtain ⟨date, sinceMidnight, timezone, withinDay⟩ := t
  simp only [whole]
  rfl

theorem takeThree_written {width : Nat} {c : Char} {first second third : Nat}
    (positive : 0 < width) (fits : first < 10 ^ width) (second_lt : second < 100)
    (third_lt : third < 100) (rest : Text) :
    takeThree width c (writeThree width c first second third ++ rest) =
      some ((first, second, third), rest) := by
  have two : ∀ {n : Nat} (s : Text), n < 100 → takeDigits 2 (zeroFilled 2 n ++ s) = some (n, s) :=
    fun s small => takeDigits_zeroFilled (by omega) small s
  simp [takeThree, writeThree, takeDigits_zeroFilled positive fits, two _ second_lt,
    two _ third_lt]

/-- What is written after the seconds starts with a letter or a sign. -/
theorem zone_head (t : Timestamp) :
    ∃ c, t.timezone.format.head? = some c ∧ c ≠ ch '.' ∧ isDigit c = false := by
  rcases t.timezone.format_head with head | head | head
  · exact ⟨_, head, by decide, by decide⟩
  · exact ⟨_, head, by decide, by decide⟩
  · exact ⟨_, head, by decide, by decide⟩

/-- Reading back what a timestamp writes gives the date, the time to the
nanosecond and the offset it had. -/
theorem fromString_formatIso8601 (t : Timestamp) : fromString t.formatIso8601 = some t := by
  obtain ⟨c, head, point, stop⟩ := t.zone_head
  obtain ⟨year, exists_⟩ := t.date.ok
  obtain ⟨-, month, -, day⟩ := exists_
  have last := Calendar.lastDay_le t.date.year t.date.month
  have hh := t.hour_lt
  have mm := t.minute_lt
  have ss := t.second_lt
  have date := takeThree_written (c := '-') (show 0 < 4 by omega)
    (show t.date.year < 10 ^ 4 by omega) (show t.date.month < 100 by omega)
    (show t.date.day < 100 by omega)
  have time := takeThree_written (c := ':') (show 0 < 2 by omega)
    (show t.hour < 10 ^ 2 by omega) (show t.minute < 100 by omega) (show t.second < 100 by omega)
  have fraction := @takeFraction_written t.subseconds _ _ head point stop
  rw [fromString, formatIso8601, date]
  simp only [Option.bind_eq_bind, Option.bind_some, reduceCtorEq, if_false, takeChar_cons, time,
    fraction, Timezone.takeZone_format, fromComponents_parts]
  have whole := t.addNanoseconds_subseconds
  by_cases zero : t.subseconds = 0
  · rw [zero, addNanoseconds_zero] at whole
    rw [if_pos zero, whole]
  · rw [if_neg zero]
    simp only [fraction_refilled t.subseconds_lt]
    exact whole

theorem text_round_trip (t : Timestamp) :
    ∃ u, fromString t.formatIso8601 = some u ∧ u.date = t.date ∧
      u.sinceMidnight = t.sinceMidnight ∧ u.timezone = t.timezone ∧ u.equals t = true ∧
      u.formatIso8601 = t.formatIso8601 :=
  ⟨t, t.fromString_formatIso8601, rfl, rfl, rfl, beq_self_eq_true _, rfl⟩

example : (ofComponents 2024 2 29 23 59 8 ⟨-30, by decide⟩).formatIso8601 =
    "2024-02-29T23:59:08-00:30".toList.map ch := by decide

end Timestamp

end Dross
