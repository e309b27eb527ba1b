import Dross.Format.ScalarForms

/-!
# The form of a timestamp

What is written for a timestamp is gathered part by part, and what was gathered is that
text again.
-/

namespace Dross

namespace Cursor

/-- A step that gathers this text, where it stands before that one. -/
def Takes (step : Cursor × Text → Option (Cursor × Text)) (written more : Text) : Prop :=
  ∀ (c : Cursor) (text : Text), c.rest = written ++ more →
    step (c, text) = some (c.skip written.length, text ++ written)

section Takes

variable {first second : Cursor × Text → Option (Cursor × Text)} {s t more : Text}

theorem Takes.bind (h : Takes first s (t ++ more)) (k : Takes second t more) :
    Takes (fun state => (first state).bind second) (s ++ t) more := by
  intro c text here
  have here' : c.rest = s ++ (t ++ more) := by rw [here, List.append_assoc]
  simp only [h c text here', Option.bind_some]
  rw [k _ _ (rest_skip_of_at here'), skip_skip, List.length_append, List.append_assoc]

theorem peekChar_digit {c : Cursor} {digits : Text} {k : Nat} (all : AllDigits digits)
    (here : c.rest = digits ++ more) (inside : k < digits.length) :
    isDigit (c.peekChar k) = true := by
  have byte : c.peekChar k = digits[k] := by
    simp [peekChar, here, List.getElem?_append_left inside, inside]
  rw [byte]
  exact all _ (List.getElem_mem inside)

theorem takes_digits {digits : Text} (all : AllDigits digits) (more : Text) :
    Takes (takeDigits digits.length) digits more := by
  intro c text here
  have ahead : c.digitsAhead 0 digits.length = true := by
    rw [digitsAhead_iff]
    intro k inside
    rw [Nat.zero_add]
    exact peekChar_digit all here inside
  rw [takeDigits, if_pos ahead, here, List.take_left]

theorem takes_zeroFilled {width n : Nat} (positive : 0 < width) (fits : n < 10 ^ width)
    (more : Text) : Takes (takeDigits width) (zeroFilled width n) more := by
  have taken := takes_digits (@zeroFilled_digits width n) more
  rwa [zeroFilled_length positive fits] at taken

theorem takes_char (byte : UInt8) (more : Text) : Takes (takeChar byte) [byte] more := by
  intro c text here
  rw [takeChar, if_pos (currentChar_of_at here)]
  rfl

theorem takes_date {year month day : Nat} (y : year < 10 ^ 4) (m : month < 10 ^ 2)
    (d : day < 10 ^ 2) (more : Text) :
    Takes takeDate (Timestamp.writeThree 4 '-' year month day) more := by
  have two {n : Nat} (small : n < 10 ^ 2) (more : Text) := takes_zeroFilled (by decide) small more
  exact (takes_zeroFilled (by decide) y _).bind ((takes_char _ _).bind ((two m _).bind
    ((takes_char _ _).bind (two d _))))

theorem takes_time {hour minute second : Nat} (h : hour < 10 ^ 2) (m : minute < 10 ^ 2)
    (s : second < 10 ^ 2) (more : Text) :
    Takes takeTime (Timestamp.writeThree 2 ':' hour minute second) more := by
  have two {n : Nat} (small : n < 10 ^ 2) (more : Text) := takes_zeroFilled (by decide) small more
  exact (two h _).bind ((takes_char _ _).bind ((two m _).bind ((takes_char _ _).bind (two s _))))

theorem takes_offset {sign : UInt8} {hours minutes : Nat} (h : hours < 10 ^ 2)
    (m : minutes < 10 ^ 2) (more : Text) :
    Takes takeOffset (sign :: (zeroFilled 2 hours ++ ch ':' :: zeroFilled 2 minutes)) more := by
  have two {n : Nat} (small : n < 10 ^ 2) (more : Text) := takes_zeroFilled (by decide) small more
  intro c text here
  have taken := (takes_char sign _).bind ((two h _).bind ((takes_char (ch ':') _).bind (two m more)))
  have current : c.currentChar = sign := currentChar_of_at here
  rw [takeOffset]
  simp only [current]
  exact taken c text here

/-- A fraction is gathered up to what is no digit. -/
theorem takeFraction_fractionText {c : Cursor} {text : Text} {fraction : Nat} {stop : UInt8}
    (here : c.rest = Timestamp.fractionText fraction ++ stop :: more) (point : stop ≠ ch '.')
    (stops : isDigit stop = false) :
    takeFraction (c, text) = (c.skip (Timestamp.fractionText fraction).length,
      text ++ Timestamp.fractionText fraction) := by
  by_cases zero : fraction = 0
  · rw [Timestamp.fractionText, if_pos zero] at here ⊢
    have current : c.currentChar = stop := currentChar_of_at here
    rw [takeFraction, takeChar, current, if_neg point, List.append_nil]
    rfl
  · rw [Timestamp.fractionText, if_neg zero] at here ⊢
    have digits : ∀ d ∈ (zeroFilled 9 fraction).rdropWhile (fun c => c == ch '0'),
        isDigit d = true :=
      fun d mem => zeroFilled_digits d ((List.rdropWhile_prefix _ _).subset mem)
    have current : c.currentChar = ch '.' := currentChar_of_at here
    have inside : c.advance.rest =
        (zeroFilled 9 fraction).rdropWhile (fun c => c == ch '0') ++ stop :: more :=
      rest_advance_of_at here
    have run : c.advance.rest.takeWhile isDigit =
        (zeroFilled 9 fraction).rdropWhile (fun c => c == ch '0') := by
      rw [inside, List.takeWhile_append_of_pos digits,
        List.takeWhile_cons_of_neg (by simp [stops]), List.append_nil]
    rw [takeFraction, takeChar, if_pos current]
    simp only [run, advance_skip, List.append_assoc, List.singleton_append, List.length_cons]

end Takes

/-! ## The whole of it -/

section Whole

variable {c : Cursor} {t : Timestamp} {more : Text}

/-- The date comes first, so what is written is no time. -/
theorem date_ahead (here : c.rest = t.formatIso8601 ++ more) :
    c.atTime = false ∧ c.atDate = true := by
  have year : t.date.year < 10 ^ 4 := Nat.lt_succ_of_le t.date.ok.1
  have length : (zeroFilled 4 t.date.year).length = 4 := zeroFilled_length (by decide) year
  rw [Timestamp.formatIso8601, Timestamp.writeThree, List.append_assoc, List.append_assoc,
    List.cons_append, List.cons_append] at here
  have digit {k : Nat} (inside : k < 4) : isDigit (c.peekChar k) = true :=
    peekChar_digit zeroFilled_digits here (by rwa [length])
  constructor
  · rw [atTime, Bool.and_eq_false_iff]
    right
    exact beq_eq_false_iff_ne.mpr (isDigit_ne (digit (by decide)) (by decide))
  · rw [atDate, Bool.and_eq_true, digitsAhead_iff]
    constructor
    · intro k inside
      rw [Nat.zero_add]
      exact digit inside
    · have dash := peekChar_of_at (zeroFilled 4 t.date.year) here
      rw [length] at dash
      rw [dash]
      rfl

/-- What comes after the fraction: the letter for UTC, or an offset. -/
theorem zone_written (tz : Timezone) : tz.format = [ch 'Z'] ∨ ∃ sign hours minutes,
    (sign = ch '+' ∨ sign = ch '-') ∧ hours < 10 ^ 2 ∧ minutes < 10 ^ 2 ∧
      tz.format = sign :: (zeroFilled 2 hours ++ ch ':' :: zeroFilled 2 minutes) := by
  by_cases zero : tz.offsetMinutes = 0
  · left
    rw [Timezone.format, if_pos zero]
  · right
    have bounds := tz.inRange
    have most : maxOffset = 1439 := rfl
    refine ⟨_, _, _, ?_, ?_, ?_, Timezone.format_signed zero⟩
    · split
      · exact Or.inl rfl
      · exact Or.inr rfl
    · omega
    · omega

/-- The date and time of a timestamp are gathered with its offset. -/
theorem parseDatetime_formatIso8601 (here : c.rest = t.formatIso8601 ++ more) :
    c.parseDatetime = .ok (.timestamp t, c.skip t.formatIso8601.length) := by
  obtain ⟨year, valid⟩ := t.date.ok
  obtain ⟨-, month, -, day⟩ := valid
  have last : Calendar.lastDay t.date.year t.date.month ≤ 31 := by
    unfold Calendar.lastDay
    split_ifs <;> omega
  have hh := t.hour_lt
  have mm := t.minute_lt
  have ss := t.second_lt
  have notTime := (date_ahead here).1
  have written : t.formatIso8601 = Timestamp.writeThree 4 '-' t.date.year t.date.month t.date.day ++
      (ch 'T' :: (Timestamp.writeThree 2 ':' t.hour t.minute t.second ++
        (Timestamp.fractionText t.subseconds ++ t.timezone.format))) := rfl
  have finished := t.fromString_formatIso8601
  generalize t.formatIso8601 = text at *
  have date := @takes_date t.date.year t.date.month t.date.day (by omega) (by omega) (by omega)
  have time := @takes_time t.hour t.minute t.second (by omega) (by omega) (by omega)
  have fractionRead {c : Cursor} {text more : Text} {stop : UInt8} :=
    @takeFraction_fractionText more c text t.subseconds stop
  generalize Timestamp.writeThree 4 '-' t.date.year t.date.month t.date.day = front at *
  generalize Timestamp.writeThree 2 ':' t.hour t.minute t.second = middle at *
  generalize Timestamp.fractionText t.subseconds = fraction at *
  subst written
  have dated : c.rest = front ++
      (ch 'T' :: (middle ++ (fraction ++ (t.timezone.format ++ more)))) := by simpa using here
  have first := date _ c [] dated
  have atLetter := rest_skip_of_at dated
  have timed : (c.skip front.length).advance.rest =
      middle ++ (fraction ++ (t.timezone.format ++ more)) := rest_advance_of_at atLetter
  have second := time _ _ (front ++ [ch 'T']) timed
  have atFraction := rest_skip_of_at timed
  rw [List.nil_append] at first
  have letter : ((ch 'T' == ch 'T') || (ch 'T' == ch 't') || ((ch 'T' == ch ' ') &&
      (c.skip front.length).digitsAhead 1 2 && (c.skip front.length).peekChar 3 == ch ':')) =
      true := rfl
  rw [parseDatetime]
  simp only [notTime, Bool.false_eq_true, if_false, first, currentChar_of_at atLetter, letter,
    if_true, second]
  rcases zone_written t.timezone with utc | ⟨sign, hours, minutes, signs, h, m, offset⟩
  · rw [utc] at atFraction finished ⊢
    have third := @fractionRead _ (front ++ [ch 'T'] ++ middle) _ _ atFraction (by decide)
      (by decide)
    have zone := currentChar_of_at (rest_skip_of_at atFraction)
    have whole : front ++ [ch 'T'] ++ middle ++ fraction ++ [ch 'Z'] =
        front ++ ch 'T' :: (middle ++ (fraction ++ [ch 'Z'])) := by simp
    simp only [third, zone, beq_self_eq_true, Bool.true_or, if_true, finishDatetime, whole,
      finished]
    simp [Nat.add_assoc, Nat.add_comm 1]
  · rw [offset] at atFraction finished ⊢
    have kind : sign ≠ ch '.' ∧ isDigit sign = false ∧
      ((sign == ch 'Z') || (sign == ch 'z')) = false ∧
        ((sign == ch '+') || (sign == ch '-')) = true := by
      rcases signs with rfl | rfl
      · decide
      · decide
    have third := @fractionRead _ (front ++ [ch 'T'] ++ middle) _ _ atFraction kind.1 kind.2.1
    have atZone := rest_skip_of_at atFraction
    have zone := currentChar_of_at atZone
    have fourth := takes_offset h m more _ (front ++ [ch 'T'] ++ middle ++ fraction) atZone
    have whole : front ++ [ch 'T'] ++ middle ++ fraction ++
        (sign :: (zeroFilled 2 hours ++ ch ':' :: zeroFilled 2 minutes)) =
        front ++ ch 'T' :: (middle ++ (fraction ++
          (sign :: (zeroFilled 2 hours ++ ch ':' :: zeroFilled 2 minutes)))) := by simp
    simp only [third, zone, kind.2.2, Bool.false_eq_true, if_false, if_true, fourth, finishDatetime,
      whole, finished]
    simp [Nat.add_assoc, Nat.add_comm 1]

/-- What is written for a timestamp is read as it was. -/
theorem parseValue_formatIso8601 (turns : Nat) (here : c.rest = t.formatIso8601 ++ more) :
    parseValue (turns + 1) c = .ok (.timestamp t, c.skip t.formatIso8601.length) := by
  obtain ⟨-, isDate⟩ := date_ahead here
  rw [← parseDatetime_formatIso8601 here]
  have digit : isDigit c.currentChar = true := by
    have ahead := isDate
    rw [atDate, Bool.and_eq_true, digitsAhead_iff] at ahead
    have first := ahead.1 0 (by decide)
    obtain ⟨rest, line, column⟩ := c
    cases rest with
    | nil => exact first
    | cons byte rest => exact first
  obtain ⟨byte, tail, opening⟩ : ∃ byte tail, c.rest = byte :: tail := by
    apply List.exists_cons_of_ne_nil
    intro empty
    rw [currentChar_of_nil empty] at digit
    cases digit
  rw [currentChar_of_at opening] at digit
  have ne (other : UInt8) (notDigit : isDigit other = false) : byte ≠ other :=
    isDigit_ne digit notDigit
  have word : c.atInfOrNan = false :=
    not_infOrNan opening ⟨ne _ (by decide), ne _ (by decide)⟩ ⟨ne _ (by decide), ne _ (by decide)⟩
  have visible : isVisible byte = true := by
    simp [isVisible, ne (ch ' ') (by decide), ne (ch '\t') (by decide),
      ne (ch '\r') (by decide), ne (ch '\n') (by decide),
      ne (ch '#') (by decide)]
  rw [parseValue, skipWhitespace_stop (by rw [currentChar_of_at opening]; exact visible),
    currentChar_of_at opening]
  simp [word, isDate, ne (ch '"') (by decide), ne (ch '\'') (by decide),
    ne (ch '[') (by decide), ne (ch '{') (by decide),
    ne (ch 't') (by decide), ne (ch 'f') (by decide)]

end Whole

end Cursor

end Dross
