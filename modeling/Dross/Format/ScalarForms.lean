import Dross.Format.ScalarReader
import Dross.Format.StringForms
import Dross.Format.TomlSerializer

/-!
# The forms of a scalar

Numbers, booleans and timestamps are read back from what is written for them, where the
byte after them is one that ends a value.
-/

namespace Dross

/-- What comes after a value in what the serializer writes. -/
def endsValue (c : UInt8) : Bool := c == ch ',' || c == ch ']' || c == ch '}' || c == ch '\n'

def Ended (more : Text) : Prop := ∃ c rest, more = c :: rest ∧ endsValue c = true

theorem endsValue_byte (c : UInt8) (ends : endsValue c = true) :
    isDigit c = false ∧ isBareKeyChar c = false ∧ c ≠ ch '.' ∧ c ≠ ch '"' ∧ c ≠ ch ':' ∧
      c ≠ 0 ∧ c ≠ ch '+' := by
  revert c
  exact everyByte (by decide +kernel)

theorem digitValue_ten (c : UInt8) : (digitValue c 10).isNone = ! isDigit c := by
  revert c
  exact everyByte (by decide +kernel)

namespace Cursor

/-! ## Runs of digits -/

/-- A run of digits is read up to the byte that ends it. -/
theorem readDigits_run {turns count : Nat} {c : Cursor} {digits tail text : Text} {stop : UInt8}
    (all : AllDigits digits) (here : c.rest = digits ++ stop :: tail)
    (stops : isDigit stop = false) (underscore : stop ≠ ch '_') (enough : digits.length < turns) :
    readDigits 10 turns c text count =
      .ok ((text ++ digits, count + digits.length), c.skip digits.length) := by
  induction digits generalizing turns c text count with
  | nil =>
    obtain ⟨turns, rfl⟩ := Nat.exists_eq_add_one_of_ne_zero (Nat.ne_of_gt enough)
    have current : c.currentChar = stop := currentChar_of_at here
    simp [readDigits, current, underscore, digitValue_ten, stops, skip]
  | cons d digits ih =>
    obtain ⟨turns, rfl⟩ := Nat.exists_eq_add_one_of_ne_zero (Nat.ne_of_gt (Nat.zero_lt_of_lt enough))
    obtain ⟨first, others⟩ := AllDigits.cons.mp all
    have notUnderscore : d ≠ ch '_' := isDigit_ne first (by decide)
    have step : readDigits 10 (turns + 1) c text count =
        readDigits 10 turns c.advance (text ++ [d]) (count + 1) := by
      simp [readDigits, currentChar_of_at here, notUnderscore, digitValue_ten, first]
    rw [step, ih others (rest_advance_of_at here) (Nat.lt_of_succ_lt_succ enough)]
    simp [Nat.add_assoc, Nat.add_comm 1]

theorem digitsOf_run {c : Cursor} {digits tail : Text} {stop : UInt8} (all : AllDigits digits)
    (here : c.rest = digits ++ stop :: tail) (stops : isDigit stop = false)
    (underscore : stop ≠ ch '_') (text : Text) :
    c.digitsOf 10 text = .ok ((text ++ digits, digits.length), c.skip digits.length) := by
  have enough : digits.length < c.rest.length + 1 := by
    rw [here, List.length_append]
    omega
  rw [digitsOf, readDigits_run all here stops underscore enough, Nat.zero_add]

/-! ## Numbers -/

/-- The fraction of what is written for a number, up to the byte after it. -/
theorem readFraction_pointed {c : Cursor} {fraction text more : Text} (all : AllDigits fraction)
    (here : c.rest = (if fraction = [] then [] else ch '.' :: fraction) ++ more)
    (ended : Ended more) :
    c.readFraction text = .ok (text ++ (if fraction = [] then [] else ch '.' :: fraction),
      c.skip (if fraction = [] then [] else ch '.' :: fraction).length) := by
  obtain ⟨stop, rest, rfl, ends⟩ := ended
  obtain ⟨stops, bare, point, -⟩ := endsValue_byte stop ends
  have underscore : stop ≠ ch '_' := by
    rintro rfl
    cases ends
  by_cases none : fraction = []
  · simp only [none, if_true, List.nil_append] at here ⊢
    simp [readFraction, currentChar_of_at here, point, skip]
  · simp only [none, if_false] at here ⊢
    have digits := digitsOf_run all (rest_advance_of_at here) stops underscore (text ++ [ch '.'])
    simp [readFraction, currentChar_of_at here, digits, none]

theorem readExponent_none {c : Cursor} {text more : Text} (here : c.rest = more)
    (ended : Ended more) : c.readExponent text = .ok (text, c) := by
  obtain ⟨stop, rest, rfl, ends⟩ := ended
  have marks : stop ≠ ch 'e' ∧ stop ≠ ch 'E' := by
    constructor
    · rintro rfl
      cases ends
    · rintro rfl
      cases ends
  simp [readExponent, currentChar_of_at here, marks]

theorem joined_eq (integer fraction : Text) :
    joined integer fraction = integer ++ (if fraction = [] then [] else ch '.' :: fraction) := by
  cases fraction with
  | nil => simp [joined]
  | cons c fraction => simp [joined]

/-- A point or the end of the value comes after the integer part. -/
theorem joined_stop {fraction more : Text} (ended : Ended more) :
    ∃ stop tail, (if fraction = [] then [] else ch '.' :: fraction) ++ more = stop :: tail ∧
      isDigit stop = false ∧ stop ≠ ch '_' ∧ isAsciiAlpha stop = false := by
  by_cases none : fraction = []
  · obtain ⟨stop, rest, rfl, ends⟩ := ended
    refine ⟨stop, rest, by simp [none], ?_⟩
    revert ends
    revert stop
    exact everyByte (by decide +kernel)
  · exact ⟨ch '.', fraction ++ more, by simp [none], by decide⟩

/-- No prefix of another base stands in front of a run of digits. -/
theorem atIntegerPrefix_digits {c : Cursor} {digits tail : Text} {stop : UInt8}
    (all : AllDigits digits) (nonempty : digits ≠ []) (here : c.rest = digits ++ stop :: tail)
    (letter : isAsciiAlpha stop = false) : c.atIntegerPrefix = false := by
  have second : isAsciiAlpha (c.peekChar 1) = false := by
    rw [peekChar, here]
    rcases digits with _ | ⟨first, _ | ⟨second, digits⟩⟩
    · exact absurd rfl nonempty
    · exact letter
    · have digits (c : UInt8) : isDigit c = true → isAsciiAlpha c = false := by
        revert c
        exact everyByte (by decide +kernel)
      exact digits second (all second (by simp))
  have letters : isAsciiAlpha (ch 'x') = true ∧ isAsciiAlpha (ch 'o') = true ∧
      isAsciiAlpha (ch 'b') = true := by decide
  have others : c.peekChar 1 ≠ ch 'x' ∧ c.peekChar 1 ≠ ch 'o' ∧ c.peekChar 1 ≠ ch 'b' := by
    refine ⟨?_, ?_, ?_⟩
    all_goals
      intro same
      simp [same, letters] at second
  simp [atIntegerPrefix, others]

theorem length_trimmed {integer : Text} (trimmed : Trimmed integer)
    (zero : integer.head? = some (ch '0')) : integer.length = 1 := by
  rw [trimmed.2 zero]
  rfl

theorem signed_not_nan {integer fraction : Text} {negative : Bool} (hi : AllDigits integer)
    (hf : AllDigits fraction) (nonempty : integer ≠ []) :
    (Number.ofText (signed negative (joined integer fraction))).isNan = false := by
  obtain ⟨s, plain, text, -⟩ := spelling_joined negative hi hf nonempty
  have canonical := (Spelling.canonicalText_plain plain).1
  rw [text] at canonical
  simp [Number.isNan, Number.ofText, Number.ofTextAs, canonical.ne_nan]

/-- A number after its sign, if it has one. -/
theorem parseNumber_unsigned {c u : Cursor} {integer fraction more sign : Text}
    (plain : c.atIntegerPrefix = false) (signs : c.takeSign [] = (u, sign))
    (hi : AllDigits integer) (hf : AllDigits fraction) (trimmed : Trimmed integer)
    (here : u.rest = joined integer fraction ++ more) (ended : Ended more)
    (number : (Number.ofText (sign ++ joined integer fraction)).isNan = false) :
    c.parseNumber = .ok (.number (Number.ofText (sign ++ joined integer fraction)),
      u.skip (joined integer fraction).length) := by
  obtain ⟨stop, tail, after, stops, underscore, letter⟩ := @joined_stop fraction more ended
  have split : joined integer fraction =
      integer ++ (if fraction = [] then [] else ch '.' :: fraction) := joined_eq integer fraction
  rw [split] at here number ⊢
  generalize pointed : (if fraction = [] then [] else ch '.' :: fraction) = point at *
  have digits : u.rest = integer ++ stop :: tail := by
    rw [here, List.append_assoc, after]
  have integerRead := digitsOf_run hi digits stops underscore sign
  have afterInteger : (u.skip integer.length).rest = point ++ more :=
    rest_skip_of_at (by rw [here, List.append_assoc])
  have fractionRead : (u.skip integer.length).readFraction (sign ++ integer) =
      .ok (sign ++ (integer ++ point), u.skip (integer.length + point.length)) := by
    rw [← skip_skip, ← List.append_assoc, ← pointed] at *
    exact readFraction_pointed hf afterInteger ended
  have atEnd : (u.skip (integer.length + point.length)).rest = more := by
    rw [← skip_skip]
    exact rest_skip_of_at afterInteger
  have exponentRead := @readExponent_none _ (sign ++ (integer ++ point)) _ atEnd ended
  have unprefixed := atIntegerPrefix_digits hi trimmed.1 digits letter
  have single : u.currentChar = ch '0' → ¬ 1 < integer.length := by
    intro zero
    obtain ⟨d, ds, rfl⟩ := List.exists_cons_of_ne_nil trimmed.1
    rw [currentChar_of_at digits] at zero
    rw [length_trimmed trimmed (congrArg _ zero)]
    exact Nat.lt_irrefl 1
  simp only [parseNumber, plain, signs, unprefixed, integerRead, fractionRead, exponentRead, number]
  simp [trimmed.1, show ¬ (u.currentChar = ch '0' ∧ 1 < integer.length) from
    fun both => single both.1 both.2]

theorem parseNumber_joined {c : Cursor} {integer fraction more : Text} {negative : Bool}
    (hi : AllDigits integer) (hf : AllDigits fraction) (trimmed : Trimmed integer)
    (here : c.rest = signed negative (joined integer fraction) ++ more) (ended : Ended more) :
    c.parseNumber = .ok (.number (Number.ofText (signed negative (joined integer fraction))),
      c.skip (signed negative (joined integer fraction)).length) := by
  have number := @signed_not_nan integer fraction negative hi hf trimmed.1
  obtain ⟨stop, tail, after, stops, underscore, letter⟩ := @joined_stop fraction more ended
  cases negative with
  | false =>
    have digits : c.rest = integer ++ stop :: tail := by
      rw [here, signed, if_neg (by decide), joined_eq, List.append_assoc, after]
    have plain := atIntegerPrefix_digits hi trimmed.1 digits letter
    have signs : c.takeSign [] = (c, []) := by
      obtain ⟨d, ds, rfl⟩ := List.exists_cons_of_ne_nil trimmed.1
      have digit := hi d List.mem_cons_self
      have plus : d ≠ ch '+' := isDigit_ne digit (by decide)
      have minus : d ≠ ch '-' := isDigit_ne digit (by decide)
      simp [takeSign, currentChar_of_at digits, plus, minus]
    exact parseNumber_unsigned plain signs hi hf trimmed here ended number
  | true =>
    have minus : c.currentChar = ch '-' := currentChar_of_at here
    have plain : c.atIntegerPrefix = false := by
      have notZero : ch '-' ≠ ch '0' := by decide
      simp [atIntegerPrefix, minus, notZero]
    have signs : c.takeSign [] = (c.advance, [ch '-']) := by
      simp [takeSign, minus]
    have inside : c.advance.rest = joined integer fraction ++ more := rest_advance_of_at here
    exact parseNumber_unsigned plain signs hi hf trimmed inside ended number

/-! ## Which reader a value goes to -/

theorem digitsAhead_iff {c : Cursor} {offset count : Nat} :
    c.digitsAhead offset count = true ↔ ∀ k < count, isDigit (c.peekChar (offset + k)) = true := by
  simp [digitsAhead]

/-- Digits ahead are digits of the value. -/
theorem peek_after_digits {c : Cursor} {text more : Text} {count : Nat}
    (here : c.rest = text ++ more) (ended : Ended more)
    (digits : ∀ k < count, isDigit (c.peekChar k) = true) :
    c.peekChar count ∈ text ∨ endsValue (c.peekChar count) = true := by
  obtain ⟨stop, rest, rfl, ends⟩ := ended
  have atStop : c.peekChar text.length = stop := peekChar_of_at text here
  rcases Nat.lt_trichotomy count text.length with inside | rfl | beyond
  · left
    have member : c.peekChar count = text[count] := by
      simp [peekChar, here, List.getElem?_append_left inside, inside]
    rw [member]
    exact List.getElem_mem inside
  · right
    rw [atStop]
    exact ends
  · have digit := digits text.length beyond
    rw [atStop, (endsValue_byte stop ends).1] at digit
    cases digit

theorem not_datetime {c : Cursor} {text more : Text} (here : c.rest = text ++ more)
    (ended : Ended more) (plain : ∀ b ∈ text, b ≠ ch '-' ∧ b ≠ ch ':') :
    (c.atDate || c.atTime) = false := by
  have after {count : Nat} (digits : c.digitsAhead 0 count = true) :
      c.peekChar count ≠ ch '-' ∧ c.peekChar count ≠ ch ':' := by
    have all := digitsAhead_iff.mp digits
    simp only [Nat.zero_add] at all
    rcases peek_after_digits here ended all with mem | ends
    · exact plain _ mem
    · constructor
      · intro same
        rw [same] at ends
        cases ends
      · intro same
        rw [same] at ends
        cases ends
  simp only [atDate, atTime, Bool.or_eq_false_iff, Bool.and_eq_false_iff, beq_eq_false_iff_ne]
  constructor
  · cases digits : c.digitsAhead 0 4 with
    | false => exact Or.inl rfl
    | true => exact Or.inr (after digits).1
  · cases digits : c.digitsAhead 0 2 with
    | false => exact Or.inl rfl
    | true => exact Or.inr (after digits).2

theorem not_infOrNan {c : Cursor} {first : UInt8} {more : Text} (here : c.rest = first :: more)
    (sign : first ≠ ch '+' ∧ first ≠ ch '-') (letter : first ≠ ch 'i' ∧ first ≠ ch 'n') :
    c.atInfOrNan = false := by
  simp [atInfOrNan, currentChar_of_at here, sign, here, letter]

theorem not_negative_infOrNan {c : Cursor} {second : UInt8} {more : Text}
    (here : c.rest = ch '-' :: second :: more) (letter : second ≠ ch 'i' ∧ second ≠ ch 'n') :
    c.atInfOrNan = false := by
  simp [atInfOrNan, currentChar_of_at here, here, letter]

theorem startsNumber_byte (b : UInt8) (starts : isDigit b = true ∨ isSign b = true) :
    isVisible b = true ∧ b ≠ ch '"' ∧ b ≠ ch '\'' ∧ b ≠ ch '[' ∧ b ≠ ch '{' ∧ b ≠ ch 't' ∧
      b ≠ ch 'f' ∧ (isDigit b || decide (b = ch '-') || decide (b = ch '+')) = true := by
  revert b
  exact everyByte (by decide +kernel)

/-- A value that starts with a digit or a sign is a float that is none, a datetime or a number. -/
theorem parseValue_of_start {c : Cursor} {first : UInt8} {more : Text} {turns : Nat}
    (here : c.rest = first :: more) (starts : isDigit first = true ∨ isSign first = true) :
    parseValue (turns + 1) c =
      if c.atInfOrNan then c.fail "number has no infinity and keeps nan for errors"
      else if c.atDate || c.atTime then c.parseDatetime else c.parseNumber := by
  obtain ⟨visible, double, single, bracket, brace, t, f, number⟩ := startsNumber_byte first starts
  have current : c.currentChar = first := currentChar_of_at here
  rw [parseValue, skipWhitespace_stop (by rw [current]; exact visible), current]
  simp only [double, single, bracket, brace, t, f, number]
  simp

theorem parseValue_number {c : Cursor} {first : UInt8} {more : Text} (turns : Nat)
    (here : c.rest = first :: more) (starts : isDigit first = true ∨ first = ch '-')
    (word : c.atInfOrNan = false) (datetime : (c.atDate || c.atTime) = false) :
    parseValue (turns + 1) c = c.parseNumber := by
  have starts : isDigit first = true ∨ isSign first = true := by
    refine starts.imp_right ?_
    rintro rfl
    decide
  rw [parseValue_of_start here starts, word, datetime]
  rfl

end Cursor
end Dross
