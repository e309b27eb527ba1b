import Dross.Format.KeyForms
import Dross.Format.PrefixedIntegers
import Dross.Format.SectionOrder
import Dross.Format.TomlWritable
import Dross.Type.NormalForm

/-!
# Decimal numbers

The decimal integers and floats of TOML: runs of digits that single underscores separate,
with a sign, a fraction and a power of ten or without. They are what the reader of numbers
takes, and each is the spelling it has without its underscores.
-/

namespace Dross

/-- Digits, with an underscore between two of them where there is one. -/
structure IsRun (w : Text) : Prop where
  digit : ∃ place, DigitAt 10 w place
  inside : ∀ c ∈ w, inRun 10 c = true
  separated : Separated 10 w

structure DecimalPower where
  mark : UInt8
  sign : Option Sign
  digits : Text
  isMark : isExponentMark mark = true
  run : IsRun digits

def DecimalPower.text (p : DecimalPower) : Text := p.mark :: (Sign.text p.sign ++ p.digits)

/-- A decimal integer or float, inf and nan aside. -/
structure DecimalText where
  sign : Option Sign
  integer : Text
  fraction : Option Text
  power : Option DecimalPower
  integerRun : IsRun integer
  leading : integer.head? = some (ch '0') → integer = [ch '0']
  fractionRun : ∀ f, fraction = some f → IsRun f

def powerText (power : Option DecimalPower) : Text := (power.map DecimalPower.text).getD []

def DecimalText.text (n : DecimalText) : Text :=
  Sign.text n.sign ++ (n.integer ++ (Spelling.pointed n.fraction ++ powerText n.power))

/-- Four digits and a dash. -/
def startsLikeDate (t : Text) : Bool := (t.take 4).all isDigit && t[4]? == some (ch '-')

/-- An integer of another base. -/
def Prefixed (t : Text) : Prop :=
  ∃ letter more, t = ch '0' :: letter :: more ∧ letter ∈ integerPrefixes.map Prod.fst

/-- A run of digits ends in front of this. -/
def EndsRun (more : Text) : Prop := ∀ b, more.head? = some b → inRun 10 b = false

section Runs

variable {c : UInt8} {w more : Text}

theorem isDigitOf_ten : isDigitOf 10 c = isDigit c := by
  have none := digitValue_ten c
  rw [digitValue_isNone] at none
  exact Bool.not_inj none

theorem runDigits_all : AllDigits (runDigits 10 w) := by
  intro c mem
  rw [← isDigitOf_ten]
  exact (List.mem_filter.mp mem).2

theorem runDigits_length (w : Text) : (runDigits 10 w).length ≤ w.length :=
  List.length_filter_le _ _

theorem IsRun.digits_ne_nil (h : IsRun w) : runDigits 10 w ≠ [] := runDigits_ne_nil.mpr h.digit

theorem digitRun_append (inside : ∀ c ∈ w, inRun 10 c = true) (ends : EndsRun more) :
    digitRun 10 (w ++ more) = w := Span.takeWhile_stop inside ends

/-- A run starts with one of its digits. -/
theorem IsRun.head (h : IsRun w) : ∃ d tail, w = d :: tail ∧ isDigit d = true := by
  obtain ⟨place, b, there, -⟩ := h.digit
  cases w with
  | nil => cases there
  | cons d tail =>
    refine ⟨d, tail, rfl, ?_⟩
    have first := h.inside d List.mem_cons_self
    rw [inRun, Bool.or_eq_true, isDigitOf_ten, beq_iff_eq] at first
    rcases first with digit | rfl
    · exact digit
    · obtain ⟨⟨before, zero, -⟩, -⟩ := h.separated 0 rfl
      cases zero

/-- A run of one digit is that digit. -/
theorem IsRun.single (h : IsRun w) (one : (runDigits 10 w).length ≤ 1) : w.length = 1 := by
  obtain ⟨d, tail, rfl, digit⟩ := h.head
  rw [runDigits_cons_digit (by rwa [isDigitOf_ten]), List.length_cons] at one
  have none : runDigits 10 tail = [] := List.eq_nil_of_length_eq_zero (by omega)
  have noDigit (place : Nat) : ¬ DigitAt 10 tail place := fun digit =>
    runDigits_ne_nil.mpr ⟨place, digit⟩ none
  cases tail with
  | nil => rfl
  | cons e tail =>
    have second := h.inside e (by simp)
    rw [inRun, Bool.or_eq_true, beq_iff_eq] at second
    rcases second with digit | rfl
    · exact absurd ⟨e, rfl, digit⟩ (noDigit 0)
    · obtain ⟨-, after⟩ := h.separated 1 rfl
      exact absurd (digitAt_succ.mp after) (noDigit 1)

theorem isRun_of_check {w : Text} (inside : w.all (inRun 10) = true)
    (digit : w.head?.any (isDigitOf 10) = true) (separated : separatedAfter 10 false w = true) :
    IsRun w :=
  ⟨⟨0, digitAt_zero.mpr digit⟩, List.all_eq_true.mp inside, separatedAfter_false.mp separated⟩

end Runs

/-! ## Where a run ends -/

section Ends

variable {more : Text}

theorem Ended.endsRun (ended : Ended more) : EndsRun more := by
  rintro b first
  obtain ⟨stop, rest, rfl, ends⟩ := ended
  obtain rfl := Option.some.inj first
  obtain ⟨digit, bare, -⟩ := endsValue_byte stop ends
  have underscore : stop ≠ ch '_' := by
    rintro rfl
    cases bare
  simp [inRun, isDigitOf_ten, digit, underscore]

/-- What ends a value starts neither a fraction nor a power. -/
theorem Ended.plain (ended : Ended more) :
    ∀ b, more.head? = some b → b ≠ ch '.' ∧ isExponentMark b = false := by
  obtain ⟨stop, rest, rfl, valueEnds⟩ := ended
  intro b first
  obtain rfl := Option.some.inj first
  obtain ⟨-, bare, point, -⟩ := endsValue_byte stop valueEnds
  refine ⟨point, ?_⟩
  by_contra mark
  rw [Bool.not_eq_false, isExponentMark, Bool.or_eq_true, beq_iff_eq, beq_iff_eq] at mark
  rcases mark with rfl | rfl
  · cases bare
  · cases bare

theorem endsRun_pointed (fraction : Option Text) (ends : EndsRun more) :
    EndsRun (Spelling.pointed fraction ++ more) := by
  cases fraction with
  | none => exact ends
  | some f =>
    rintro b first
    obtain rfl := Option.some.inj first
    decide

theorem powerText_head {power : Option DecimalPower} {b : UInt8}
    (first : (powerText power ++ more).head? = some b) :
    isExponentMark b = true ∨ more.head? = some b := by
  cases power with
  | none => exact Or.inr first
  | some p =>
    obtain rfl := Option.some.inj first
    exact Or.inl p.isMark

theorem mark_byte (b : UInt8) (mark : isExponentMark b = true) :
    inRun 10 b = false ∧ b ≠ ch '.' := by
  revert b
  exact everyByte (by decide +kernel)

theorem endsRun_power (power : Option DecimalPower) (ends : EndsRun more) :
    EndsRun (powerText power ++ more) := by
  intro b first
  rcases powerText_head first with mark | first
  · exact (mark_byte b mark).1
  · exact ends b first

end Ends

/-- The bytes a decimal number is made of. -/
def isDecimalByte (b : UInt8) : Bool :=
  isDigit b || b == ch '_' || isSign b || b == ch '.' || isExponentMark b

theorem isDecimalByte_plain (b : UInt8) (decimal : isDecimalByte b = true) :
    b ≤ 0x7F ∧ b ≠ ch '\n' ∧ b ≠ ch ':' := by
  revert b
  exact everyByte (by decide +kernel)

namespace DecimalText

/-- The power of ten without underscores. -/
def spelledPower (p : DecimalPower) : Power where
  mark := p.mark
  sign := p.sign
  digits := runDigits 10 p.digits
  isMark := p.isMark
  allDigits := runDigits_all
  nonempty := p.run.digits_ne_nil

/-- The spelling a decimal number is without its underscores. -/
def spelling (n : DecimalText) : Spelling where
  sign := n.sign
  integer := runDigits 10 n.integer
  fraction := n.fraction.map (runDigits 10)
  power := n.power.map spelledPower
  integerDigits := runDigits_all
  fractionDigits := by
    cases n.fraction with
    | none => exact AllDigits.nil
    | some f => exact runDigits_all
  nonempty := by simp [n.integerRun.digits_ne_nil]

theorem length_pointed (fraction : Option Text) :
    (Spelling.pointed (fraction.map (runDigits 10))).length ≤ (Spelling.pointed fraction).length := by
  cases fraction with
  | none => exact Nat.le_refl _
  | some f => exact Nat.succ_le_succ (runDigits_length f)

theorem length_power (power : Option DecimalPower) :
    (((power.map spelledPower).map Power.text).getD []).length ≤ (powerText power).length := by
  cases power with
  | none => exact Nat.le_refl _
  | some p =>
    have digits := runDigits_length p.digits
    simp only [powerText, Option.map_some, Option.getD_some, Power.text, DecimalPower.text,
      spelledPower, List.length_cons, List.length_append]
    omega

/-- Without its underscores a number is no longer. -/
theorem length_spelling (n : DecimalText) : n.spelling.text.length ≤ n.text.length := by
  have integer := runDigits_length n.integer
  have fraction := length_pointed n.fraction
  have power := length_power n.power
  rw [Spelling.text, Spelling.mantissa, Spelling.powerText, text]
  simp only [spelling, List.length_append]
  omega

theorem bytes_run {w : Text} (run : IsRun w) {b : UInt8} (mem : b ∈ w) :
    isDecimalByte b = true := by
  have inside := run.inside b mem
  rw [inRun, isDigitOf_ten] at inside
  simp [isDecimalByte, inside]

theorem bytes_sign {sign : Option Sign} {b : UInt8} (mem : b ∈ Sign.text sign) :
    isDecimalByte b = true := by
  rcases sign with _ | _ | _
  · cases mem
  · rw [List.mem_singleton.mp mem]
    decide
  · rw [List.mem_singleton.mp mem]
    decide

theorem bytes (n : DecimalText) {b : UInt8} (mem : b ∈ n.text) : isDecimalByte b = true := by
  rw [text, List.mem_append, List.mem_append, List.mem_append] at mem
  rcases mem with mem | mem | mem | mem
  · exact bytes_sign mem
  · exact bytes_run n.integerRun mem
  · cases same : n.fraction with
    | none =>
      rw [same] at mem
      cases mem
    | some f =>
      rw [same] at mem
      rcases List.mem_cons.mp mem with rfl | mem
      · decide
      · exact bytes_run (n.fractionRun f same) mem
  · cases same : n.power with
    | none =>
      rw [same] at mem
      cases mem
    | some p =>
      rw [same] at mem
      rcases List.mem_cons.mp mem with rfl | mem
      · simp [isDecimalByte, p.isMark]
      rcases List.mem_append.mp mem with mem | mem
      · exact bytes_sign mem
      · exact bytes_run p.run mem

/-- After its sign a decimal number starts with a digit. -/
theorem front (n : DecimalText) : ∃ digit tail,
    n.text = Sign.text n.sign ++ digit :: tail ∧ isDigit digit = true := by
  obtain ⟨digit, more, integer, isDigit⟩ := n.integerRun.head
  exact ⟨digit, _, by rw [DecimalText.text, integer, List.cons_append], isDigit⟩

theorem starts (n : DecimalText) : ∃ b tail,
    n.text = b :: tail ∧ (isDigit b = true ∨ isSign b = true) := by
  obtain ⟨digit, tail, text, isDigit⟩ := n.front
  rw [text]
  rcases n.sign with _ | _ | _
  · exact ⟨digit, _, rfl, Or.inl isDigit⟩
  · exact ⟨ch '+', _, rfl, Or.inr (by decide)⟩
  · exact ⟨ch '-', _, rfl, Or.inr (by decide)⟩

theorem dropSign_text {n : DecimalText} {digit : UInt8} {tail : Text}
    (text : n.text = Sign.text n.sign ++ digit :: tail) (isDigit : isDigit digit = true) :
    dropSign n.text = digit :: tail := by
  rw [text]
  apply Dross.dropSign_text
  rintro b same
  obtain rfl := Option.some.inj same
  exact digit_not_sign isDigit

end DecimalText

namespace Cursor

variable {c d : Cursor} {text more t : Text} {count : Nat}

/-! ## The parts of a number -/

theorem digitsOf_run_of_at {w : Text} (here : c.rest = w ++ more) (run : IsRun w)
    (ends : EndsRun more) (text : Text) :
    c.digitsOf 10 text =
      .ok ((text ++ runDigits 10 w, (runDigits 10 w).length), c.skip w.length) := by
  have whole : digitRun 10 c.rest = w := by rw [here, digitRun_append run.inside ends]
  have read := @digitsOf_separated 10 c (by rw [whole]; exact run.separated) text
  rwa [whole] at read

/-- What digits have been read. -/
theorem digitsOf_ok (read : c.digitsOf 10 text = .ok ((t, count), d)) (some : count ≠ 0) :
    ∃ w, IsRun w ∧ c.rest = w ++ d.rest ∧ d = c.skip w.length ∧ t = text ++ runDigits 10 w ∧
      count = (runDigits 10 w).length := by
  by_cases separated : Separated 10 (digitRun 10 c.rest)
  · rw [digitsOf_separated separated] at read
    simp only [Except.ok.injEq, Prod.mk.injEq] at read
    obtain ⟨⟨rfl, rfl⟩, rfl⟩ := read
    refine ⟨digitRun 10 c.rest, ⟨?_, ?_, separated⟩, ?_, rfl, rfl, rfl⟩
    · rw [← runDigits_ne_nil, ne_eq, ← List.length_eq_zero_iff]
      exact some
    · intro b mem
      exact List.mem_takeWhile_imp mem
    · have split := @List.takeWhile_append_dropWhile _ (inRun 10) c.rest
      have after := @rest_skip_of_at c (digitRun 10 c.rest) _ split.symm
      rw [after]
      exact split.symm
  · obtain ⟨e, failed⟩ := digitsOf_misplaced separated text
    rw [failed] at read
    cases read

theorem takeSign_ok (c : Cursor) (text : Text) : ∃ sign,
    c.takeSign text = (c.skip (Sign.text sign).length, text ++ Sign.text sign) ∧
      c.rest = Sign.text sign ++ (c.skip (Sign.text sign).length).rest := by
  rcases here : c.rest with _ | ⟨b, rest⟩
  · refine ⟨none, ?_, ?_⟩
    · simp [takeSign, currentChar_of_nil here, Sign.text, skip,
        show (0 : UInt8) ≠ ch '+' ∧ (0 : UInt8) ≠ ch '-' by decide]
    · simp [Sign.text, skip, here]
  · have current := currentChar_of_at here
    by_cases plus : b = ch '+'
    · subst plus
      exact ⟨some .plus, by simp [takeSign, current, Sign.text, skip],
        by simp [Sign.text, here]⟩
    by_cases minus : b = ch '-'
    · subst minus
      exact ⟨some .minus, by simp [takeSign, current, Sign.text, skip],
        by simp [Sign.text, here]⟩
    · exact ⟨none, by simp [takeSign, current, Sign.text, skip, plus, minus],
        by simp [Sign.text, skip, here]⟩

theorem takeSign_of_at {sign : Option Sign} (here : c.rest = Sign.text sign ++ more)
    (unsigned : ∀ b, more.head? = some b → isSign b = false) (text : Text) :
    c.takeSign text = (c.skip (Sign.text sign).length, text ++ Sign.text sign) := by
  rcases sign with _ | _ | _
  · cases more with
    | nil =>
      simp [takeSign, currentChar_of_nil here, Sign.text, skip,
        show (0 : UInt8) ≠ ch '+' ∧ (0 : UInt8) ≠ ch '-' by decide]
    | cons b more =>
      have plain := unsigned b rfl
      simp only [isSign, Bool.or_eq_false_iff, beq_eq_false_iff_ne] at plain
      simp [takeSign, currentChar_of_at here, Sign.text, skip, plain]
  · simp [takeSign, currentChar_of_at here, Sign.text, skip]
  · simp [takeSign, currentChar_of_at here, Sign.text, skip]

theorem readFraction_ok (read : c.readFraction text = .ok (t, d)) : ∃ fraction : Option Text,
    (∀ f, fraction = some f → IsRun f) ∧ c.rest = Spelling.pointed fraction ++ d.rest ∧
      d = c.skip (Spelling.pointed fraction).length ∧
      t = text ++ Spelling.pointed (fraction.map (runDigits 10)) := by
  rw [readFraction] at read
  split at read
  · rename_i point
    split at read
    · cases read
    · rename_i t' count e digits
      split at read
      · cases read
      · rename_i some'
        obtain ⟨rfl, rfl⟩ := Prod.mk.inj (Except.ok.inj read)
        obtain ⟨f, run, rest, rfl, rfl, -⟩ := digitsOf_ok digits some'
        refine ⟨some f, ?_, ?_, rfl, ?_⟩
        · rintro g same
          obtain rfl := Option.some.inj same
          exact run
        · rcases here : c.rest with _ | ⟨b, tail⟩
          · rw [currentChar_of_nil here] at point
            cases point
          · rw [currentChar_of_at here] at point
            rw [rest_advance_of_at here] at rest
            rw [point, rest]
            rfl
        · simp [Spelling.pointed]
  · obtain ⟨rfl, rfl⟩ := Prod.mk.inj (Except.ok.inj read)
    exact ⟨none, by simp, rfl, rfl, by simp [Spelling.pointed]⟩

theorem readFraction_of_at {fraction : Option Text}
    (here : c.rest = Spelling.pointed fraction ++ more) (runs : ∀ f, fraction = some f → IsRun f)
    (ends : EndsRun more) (point : ∀ b, more.head? = some b → b ≠ ch '.') (text : Text) :
    c.readFraction text = .ok (text ++ Spelling.pointed (fraction.map (runDigits 10)),
      c.skip (Spelling.pointed fraction).length) := by
  cases fraction with
  | none =>
    have plain : c.currentChar ≠ ch '.' := by
      cases more with
      | nil =>
        rw [currentChar_of_nil here]
        decide
      | cons b more =>
        rw [currentChar_of_at here]
        exact point b rfl
    simp [readFraction, plain, Spelling.pointed, skip]
  | some f =>
    have run := runs f rfl
    have digits := digitsOf_run_of_at (rest_advance_of_at here) run ends (text ++ [ch '.'])
    have nonzero := run.digits_ne_nil
    simp [readFraction, currentChar_of_at here, digits, Spelling.pointed, nonzero]

theorem readExponent_ok (read : c.readExponent text = .ok (t, d)) :
    ∃ power : Option DecimalPower, c.rest = powerText power ++ d.rest ∧
      d = c.skip (powerText power).length ∧
      t = text ++ ((power.map DecimalText.spelledPower).map Power.text).getD [] := by
  rw [readExponent] at read
  split at read
  · rename_i mark
    obtain ⟨sign, signed, after⟩ := takeSign_ok c.advance (text ++ [c.currentChar])
    simp only [signed] at read
    split at read
    · cases read
    · rename_i t' count e digits
      split at read
      · cases read
      · rename_i some'
        obtain ⟨rfl, rfl⟩ := Prod.mk.inj (Except.ok.inj read)
        obtain ⟨w, run, rest, rfl, rfl, -⟩ := digitsOf_ok digits some'
        rw [rest] at after
        have isMark : isExponentMark c.currentChar = true := by simpa [isExponentMark] using mark
        refine ⟨some ⟨c.currentChar, sign, w, isMark, run⟩, ?_, ?_, ?_⟩
        · rcases here : c.rest with _ | ⟨b, tail⟩
          · rw [currentChar_of_nil here] at isMark
            cases isMark
          · rw [rest_advance_of_at here] at after
            simp [powerText, DecimalPower.text, currentChar_of_at here, after]
        · simp [powerText, DecimalPower.text, Nat.add_comm, Nat.add_left_comm]
        · simp [DecimalText.spelledPower, Power.text]
  · obtain ⟨rfl, rfl⟩ := Prod.mk.inj (Except.ok.inj read)
    exact ⟨none, rfl, rfl, by simp⟩

theorem readExponent_of_at {power : Option DecimalPower} (here : c.rest = powerText power ++ more)
    (ends : EndsRun more) (mark : ∀ b, more.head? = some b → isExponentMark b = false)
    (text : Text) :
    c.readExponent text =
      .ok (text ++ ((power.map DecimalText.spelledPower).map Power.text).getD [],
        c.skip (powerText power).length) := by
  cases power with
  | none =>
    have plain : ¬ (c.currentChar = ch 'e' ∨ c.currentChar = ch 'E') := by
      cases more with
      | nil =>
        rw [currentChar_of_nil here]
        decide
      | cons b more =>
        rw [currentChar_of_at here]
        simpa [isExponentMark] using mark b rfl
    simp [readExponent, plain, powerText, skip]
  | some p =>
    have opening : c.rest = p.mark :: (Sign.text p.sign ++ (p.digits ++ more)) := by
      rw [here, powerText, Option.map_some, Option.getD_some, DecimalPower.text, List.cons_append,
        List.append_assoc]
    have marked : (decide (p.mark = ch 'e') || decide (p.mark = ch 'E')) = true := by
      simpa [isExponentMark] using p.isMark
    have inside := rest_advance_of_at opening
    have unsigned : ∀ b, (p.digits ++ more).head? = some b → isSign b = false := by
      obtain ⟨digit, tail, split, isDigit⟩ := p.run.head
      rw [split]
      rintro b first
      obtain rfl := Option.some.inj first
      exact digit_not_sign isDigit
    have signed := takeSign_of_at inside unsigned (text ++ [p.mark])
    have digits := digitsOf_run_of_at (rest_skip_of_at inside) p.run ends
      (text ++ [p.mark] ++ Sign.text p.sign)
    have nonzero := p.run.digits_ne_nil
    simp only [readExponent, currentChar_of_at opening, marked, signed, digits]
    simp [nonzero, powerText, DecimalPower.text, DecimalText.spelledPower, Power.text, Nat.add_comm,
      Nat.add_left_comm]

/-! ## The whole number -/

theorem atIntegerPrefix_iff : c.atIntegerPrefix = true ↔ Prefixed c.rest := by
  have letters (b : UInt8) : b ∈ integerPrefixes.map Prod.fst ↔
      b = ch 'x' ∨ b = ch 'o' ∨ b = ch 'b' := by simp [integerPrefixes]
  simp only [atIntegerPrefix, Bool.and_eq_true, Bool.or_eq_true, beq_iff_eq, or_assoc, Prefixed,
    letters]
  rcases here : c.rest with _ | ⟨b, _ | ⟨letter, more⟩⟩
  · have zero : (0 : UInt8) ≠ ch '0' := by decide
    simp [currentChar_of_nil here, zero]
  · have none : (0 : UInt8) ≠ ch 'x' ∧ (0 : UInt8) ≠ ch 'o' ∧ (0 : UInt8) ≠ ch 'b' := by decide
    simp [peekChar, here, none]
  · simp [currentChar_of_at here, peekChar, here]

/-- A number that is read is a decimal one, in the spelling it has without underscores. -/
theorem parseNumber_ok {v : Value} (plain : ¬ Prefixed c.rest)
    (read : c.parseNumber = .ok (v, d)) : ∃ n : DecimalText, c.rest = n.text ++ d.rest ∧
      d = c.skip n.text.length ∧ v = .number (Number.ofText n.spelling.text) ∧
      (Number.ofText n.spelling.text).isNan = false := by
  rw [← atIntegerPrefix_iff] at plain
  obtain ⟨sign, signed, front⟩ := takeSign_ok c []
  rw [parseNumber, if_neg plain] at read
  simp only [signed, List.nil_append] at read
  split at read
  · cases read
  split at read
  · cases read
  rename_i text count afterInteger digits
  split at read
  · cases read
  rename_i some'
  split at read
  · cases read
  rename_i leading
  split at read
  · cases read
  rename_i text' afterFraction fractionRead
  split at read
  · cases read
  rename_i text'' afterPower exponentRead
  split at read
  · cases read
  rename_i number
  obtain ⟨rfl, rfl⟩ := Prod.mk.inj (Except.ok.inj read)
  obtain ⟨integer, run, integerRest, rfl, rfl, rfl⟩ := digitsOf_ok digits some'
  obtain ⟨fraction, runs, fractionRest, rfl, rfl⟩ := readFraction_ok fractionRead
  obtain ⟨power, powerRest, rfl, rfl⟩ := readExponent_ok exponentRead
  have single : integer.head? = some (ch '0') → integer = [ch '0'] := by
    intro zero
    obtain ⟨first, tail, rfl, -⟩ := run.head
    obtain rfl := Option.some.inj zero
    rw [currentChar_of_at integerRest] at leading
    have one := run.single (by simpa using leading)
    rw [List.eq_nil_of_length_eq_zero (Nat.succ.inj one)]
  refine ⟨⟨sign, integer, fraction, power, run, single, runs⟩, ?_, ?_, ?_, ?_⟩
  · rw [front, integerRest, fractionRest, powerRest]
    simp [DecimalText.text]
  · simp [DecimalText.text, Nat.add_assoc]
  · simp [Spelling.text, Spelling.mantissa, Spelling.powerText, DecimalText.spelling]
  · simpa [Spelling.text, Spelling.mantissa, Spelling.powerText, DecimalText.spelling] using number

/-- A zero in front of the integer is all of it. -/
theorem leading_of_at {n : DecimalText} (here : c.rest = n.integer ++ more) :
    (c.currentChar == ch '0' && decide ((runDigits 10 n.integer).length > 1)) = false := by
  obtain ⟨first, tail, split, -⟩ := n.integerRun.head
  rw [Bool.and_eq_false_iff, beq_eq_false_iff_ne, decide_eq_false_iff_not]
  by_cases zero : c.currentChar = ch '0'
  · right
    rw [split] at here
    rw [currentChar_of_at here] at zero
    rw [n.leading (by rw [split, zero]; rfl)]
    decide
  · exact Or.inl zero

/-- A decimal number is read up to what ends a value, where it is one for the type. -/
theorem parseNumber_of_at {n : DecimalText} (here : c.rest = n.text ++ more) (ended : Ended more)
    (plain : ¬ Prefixed c.rest) (unsigned : ¬ Prefixed (c.skip (Sign.text n.sign).length).rest)
    (number : (Number.ofText n.spelling.text).isNan = false) :
    c.parseNumber =
      .ok (.number (Number.ofText n.spelling.text), c.skip n.text.length) := by
  rw [← atIntegerPrefix_iff] at plain unsigned
  have ends := ended.endsRun
  have others := ended.plain
  have front : c.rest = Sign.text n.sign ++ (n.integer ++
      (Spelling.pointed n.fraction ++ (powerText n.power ++ more))) := by
    rw [here, DecimalText.text]
    simp only [List.append_assoc]
  obtain ⟨first, tail, split, digit⟩ := n.integerRun.head
  have signed := takeSign_of_at front (by
    rw [split]
    rintro b same
    obtain rfl := Option.some.inj same
    exact digit_not_sign digit) []
  have inside := rest_skip_of_at front
  have integerRead := digitsOf_run_of_at inside n.integerRun
    (endsRun_pointed _ (endsRun_power _ ends)) (Sign.text n.sign)
  have afterInteger := rest_skip_of_at inside
  have fractionRead := readFraction_of_at afterInteger n.fractionRun (endsRun_power _ ends) (by
    intro b same
    rcases powerText_head same with mark | same
    · exact (mark_byte b mark).2
    · exact (others b same).1) (Sign.text n.sign ++ runDigits 10 n.integer)
  have afterFraction := rest_skip_of_at afterInteger
  have exponentRead := readExponent_of_at afterFraction ends (fun b same => (others b same).2)
    (Sign.text n.sign ++ runDigits 10 n.integer ++
      Spelling.pointed (n.fraction.map (runDigits 10)))
  have some' := n.integerRun.digits_ne_nil
  have leading := leading_of_at inside
  have same : Sign.text n.sign ++ runDigits 10 n.integer ++
      Spelling.pointed (n.fraction.map (runDigits 10)) ++
        ((n.power.map DecimalText.spelledPower).map Power.text).getD [] = n.spelling.text := by
    simp [Spelling.text, Spelling.mantissa, Spelling.powerText, DecimalText.spelling]
  rw [same] at exponentRead
  rw [parseNumber, if_neg plain]
  simp only [signed, List.nil_append, unsigned, integerRead, fractionRead, exponentRead, leading,
    number]
  simp [some', DecimalText.text, Nat.add_assoc]

/-! ## Which reader a number goes to -/

theorem atInfOrNan_of_digit {sign : Option Sign} {digit : UInt8}
    (here : c.rest = Sign.text sign ++ digit :: more) (isDigit : isDigit digit = true) :
    c.atInfOrNan = false := by
  have letter : digit ≠ ch 'i' ∧ digit ≠ ch 'n' :=
    ⟨isDigit_ne isDigit (by decide), isDigit_ne isDigit (by decide)⟩
  have plain : digit ≠ ch '+' ∧ digit ≠ ch '-' :=
    ⟨isDigit_ne isDigit (by decide), isDigit_ne isDigit (by decide)⟩
  rcases sign with _ | _ | _
  · exact not_infOrNan here plain letter
  · simp [atInfOrNan, currentChar_of_at here, here, Sign.text, letter]
  · exact not_negative_infOrNan here letter

theorem peekChar_mem {offset : Nat} (some : c.peekChar offset ≠ 0) :
    c.peekChar offset ∈ c.rest := by
  rw [peekChar, List.getD_eq_getElem?_getD] at some ⊢
  cases here : c.rest[offset]? with
  | none =>
    rw [here] at some
    exact absurd rfl some
  | some b => exact List.mem_of_getElem? here

/-! ## A document of one pair -/

theorem skipWhitespaceAndComments_stop {byte : UInt8} (here : c.rest = byte :: more)
    (visible : isVisible byte = true) : c.skipWhitespaceAndComments = c := by
  have current := currentChar_of_at here
  have stop : c.skipWhitespace = c := skipWhitespace_stop (by rwa [current])
  simp only [isVisible, Bool.and_eq_true, bne_iff_ne] at visible
  simp [skipWhitespaceAndComments, skipLines, atEnd_of_at here, stop, current, visible]

theorem skipWhitespace_newline (here : c.rest = ch '\n' :: more) : c.skipWhitespace = c := by
  apply advanceWhile_stop
  have current := currentChar_of_at here
  simp [atCrLf, current, show ch '\n' ≠ ch ' ' ∧ ch '\n' ≠ ch '\t' ∧ ch '\n' ≠ ch '\r' by decide]

theorem expectLineEnd_newline (here : c.rest = ch '\n' :: more) :
    c.expectLineEnd = .ok ((), c) := by
  have current := currentChar_of_at here
  simp [expectLineEnd, skipWhitespace_newline here, current]

theorem expectLineEnd_visible {byte : UInt8} (here : c.rest = byte :: more)
    (visible : isVisible byte = true) : c.expectLineEnd = c.fail "Expected a newline" := by
  have current := currentChar_of_at here
  have stop : c.skipWhitespace = c := skipWhitespace_stop (by rwa [current])
  simp only [isVisible, Bool.and_eq_true, bne_iff_ne] at visible
  simp [expectLineEnd, stop, current, atEnd_of_at here, visible]

/-- The pair of the key `k` and a value, and the end of its line. -/
def pairLine (w : Text) : Text := "k = ".toList.map ch ++ (w ++ [ch '\n'])

/-- Where the value of the pair starts. -/
def atValue (w : Text) : Cursor := (start (pairLine w)).skip 4

theorem rest_atValue (w : Text) : (atValue w).rest = w ++ [ch '\n'] :=
  @rest_skip_of_at (start (pairLine w)) ("k = ".toList.map ch) _ rfl

theorem parseStatement_pairLine {w : Text} {byte : UInt8} {tail : Text} (split : w = byte :: tail)
    (visible : isVisible byte = true) : ∃ turns,
    (start (pairLine w)).parseStatement =
      (parseValue (turns + 1) (atValue w)).bind (fun read => read.2.expectLineEnd.map
        (fun ended => ((.pair ⟨[ch 'k'], []⟩ read.1, ⟨1, 1⟩), ended.2))) := by
  have here : (start (pairLine w)).rest =
      Toml.escapeKey [ch 'k'] ++ ch ' ' :: ch '=' :: ch ' ' :: byte :: (tail ++ [ch '\n']) := by
    rw [split]
    rfl
  have key := parseKeyPath_escapeKey here visible
  have four : (Toml.escapeKey [ch 'k']).length + 3 = 4 := rfl
  have bracket : (start (pairLine w)).currentChar ≠ ch '[' := by
    rw [currentChar_of_at here]
    decide
  refine ⟨4 * (w.length + 5) + 2, ?_⟩
  have turns : (start (pairLine w)).turns = 4 * (w.length + 5) + 2 + 1 + 1 := by
    simp [Cursor.turns, start, pairLine]
  rw [four] at key
  rw [parseStatement, if_neg bracket, turns, parseKeyValue, key]
  simp only [show (start (pairLine w)).skip 4 = atValue w from rfl]
  rcases parseValue (4 * (w.length + 5) + 3) (atValue w) with e | ⟨v, d⟩
  · rfl
  · rfl

theorem skipWhitespaceAndComments_pairLine (w : Text) :
    (start (pairLine w)).skipWhitespaceAndComments = start (pairLine w) :=
  @skipWhitespaceAndComments_stop (start (pairLine w)) _ (ch 'k') rfl (by decide)

/-- Where the document is accepted its value is read, up to the end of the line. -/
theorem value_of_accepted {w : Text} {byte : UInt8} {tail : Text} {result : Dictionary}
    (split : w = byte :: tail) (visible : isVisible byte = true)
    (accepted : Toml.deserialize (pairLine w) = .ok result) :
    ∃ turns v d e, parseValue (turns + 1) (atValue w) = .ok (v, d) ∧
      d.expectLineEnd = .ok ((), e) := by
  obtain ⟨-, parsed⟩ := deserialize_ok_iff.mp accepted
  obtain ⟨ss, -, spells, -, -⟩ := parse_ok_iff.mp parsed
  obtain ⟨turns, statement⟩ := parseStatement_pairLine split visible
  have blanks := skipWhitespaceAndComments_pairLine w
  cases spells with
  | done ended =>
    rw [blanks] at ended
    cases ended
  | next more read rest =>
    rw [blanks, statement] at read
    rcases value : parseValue (turns + 1) (atValue w) with e | ⟨v, d⟩
    · rw [value] at read
      cases read
    · rw [value] at read
      rcases line : d.expectLineEnd with e | ⟨u, e⟩
      · simp [Except.bind, Except.map, line] at read
      · exact ⟨turns, v, d, e, value, line⟩

/-- A value that is read to the end of its line is the document's only one. -/
theorem accepted_of_value {w : Text} {byte : UInt8} {tail : Text} {v : Value} {d : Cursor}
    (split : w = byte :: tail) (visible : isVisible byte = true) (ascii : Toml.Ascii w)
    (value : ∀ turns, parseValue (turns + 1) (atValue w) = .ok (v, d)) (atEnd : d.rest = [ch '\n']) :
    Toml.deserialize (pairLine w) = .ok [([ch 'k'], v)] := by
  obtain ⟨turns, statement⟩ := parseStatement_pairLine split visible
  have blanks := skipWhitespaceAndComments_pairLine w
  rw [value turns] at statement
  have read : (start (pairLine w)).parseStatement =
      .ok ((.pair ⟨[ch 'k'], []⟩ v, ⟨1, 1⟩), d) := by
    rw [statement]
    simp [Except.bind, Except.map, expectLineEnd_newline atEnd]
  have ended : d.skipWhitespaceAndComments.atEnd = true := by
    obtain ⟨rest, line, column⟩ := d
    cases atEnd
    rfl
  have spells : (start (pairLine w)).Spells [(.pair ⟨[ch 'k'], []⟩ v, ⟨1, 1⟩)] := by
    refine .next ?_ (by rw [blanks, read]) (.done ended)
    rw [blanks]
    rfl
  rw [deserialize_ok_iff, parse_ok_iff]
  refine ⟨valid_ascii ?_, _, _, spells, rfl, rfl⟩
  refine Toml.ascii_append.mpr ⟨Toml.ascii_of_all (by decide), Toml.ascii_append.mpr ⟨ascii, ?_⟩⟩
  exact Toml.ascii_of_all (by decide)

/-! ## Exactly the decimal numbers -/

variable {w : Text}

theorem parseDatetime_of_time (time : c.atTime = true) : ∃ e, c.parseDatetime = .error e := by
  rw [parseDatetime]
  simp only [time, if_true]
  exact ⟨_, rfl⟩

theorem atDate_value (noDate : startsLikeDate w = false) : (atValue w).atDate = false := by
  have here := rest_atValue w
  have newline : isDigit (ch '\n') = false := by decide
  have nothing : isDigit 0 = false := by decide
  rcases w with _ | ⟨a, _ | ⟨b, _ | ⟨d, _ | ⟨e, _ | ⟨f, w⟩⟩⟩⟩⟩
  · simp [atDate, digitsAhead, List.range_succ, peekChar, here, newline]
  · simp [atDate, digitsAhead, List.range_succ, peekChar, here, newline]
  · simp [atDate, digitsAhead, List.range_succ, peekChar, here, newline]
  · simp [atDate, digitsAhead, List.range_succ, peekChar, here, newline]
  · simp [atDate, peekChar, here, show ch '\n' ≠ ch '-' by decide]
  · simpa [atDate, digitsAhead, List.range_succ, peekChar, here, startsLikeDate, and_assoc] using
      noDate

theorem prefixed_line (h : Prefixed (w ++ [ch '\n'])) : Prefixed w := by
  obtain ⟨letter, more, same, known⟩ := h
  rcases w with _ | ⟨a, _ | ⟨b, w⟩⟩
  · cases same
  · obtain ⟨-, same⟩ := List.cons.inj same
    obtain ⟨rfl, -⟩ := List.cons.inj same
    exact absurd known (by decide)
  · obtain ⟨zero, others⟩ := List.cons.inj same
    obtain ⟨rfl, -⟩ := List.cons.inj others
    exact ⟨b, w, by rw [zero], known⟩

theorem prefixed_dropSign (h : Prefixed w) : Prefixed (dropSign w) := by
  obtain ⟨letter, more, rfl, known⟩ := h
  exact ⟨letter, more, rfl, known⟩

theorem isWrittenAsFloatingPoint_spelling (n : DecimalText) :
    isWrittenAsFloatingPoint n.spelling.text = (n.fraction.isSome || n.power.isSome) := by
  have sign : isWrittenAsFloatingPoint (Sign.text n.sign) = false := by
    rcases n.sign with _ | _ | _ <;> rfl
  have integer := digits_integral n.spelling.integerDigits
  rw [isWrittenAsFloatingPoint] at sign integer ⊢
  rw [Spelling.text, List.any_append, Spelling.mantissa, List.any_append, List.any_append,
    show n.spelling.sign = n.sign from rfl, sign, integer, Bool.false_or, Bool.false_or]
  cases fraction : n.fraction with
  | some f => simp [DecimalText.spelling, fraction, Spelling.pointed]
  | none =>
    cases power : n.power with
    | none => simp [DecimalText.spelling, fraction, power, Spelling.pointed, Spelling.powerText]
    | some p =>
      have mark : p.mark = ch 'e' ∨ p.mark = ch 'E' := by simpa [isExponentMark] using p.isMark
      simp [DecimalText.spelling, DecimalText.spelledPower, fraction, power, Spelling.pointed,
        Spelling.powerText, Power.text, or_assoc, mark]

/-- The value of an accepted line is a decimal number and nothing else. -/
theorem decimal_of_accepted (starts : ∃ b, w.head? = some b ∧ (isDigit b = true ∨ isSign b = true))
    (visible : ∀ b ∈ w, isVisible b = true) (noDate : startsLikeDate w = false)
    (noPrefix : ¬ Prefixed (dropSign w)) {result : Dictionary}
    (accepted : Toml.deserialize (pairLine w) = .ok result) :
    ∃ n : DecimalText, n.text = w ∧ (Number.ofText n.spelling.text).isNan = false := by
  obtain ⟨b, head, starts⟩ := starts
  obtain ⟨tail, split⟩ := List.head?_eq_some_iff.mp head
  have first := visible b (by rw [split]; exact List.mem_cons_self)
  obtain ⟨turns, v, d, e, value, line⟩ := value_of_accepted split first accepted
  have here := rest_atValue w
  have opening : (atValue w).rest = b :: (tail ++ [ch '\n']) := by rw [here, split]; rfl
  have plain : ¬ Prefixed (atValue w).rest := by
    rw [here]
    exact fun h => noPrefix (prefixed_dropSign (prefixed_line h))
  rw [parseValue_of_start opening starts] at value
  split at value
  · cases value
  split at value
  · rename_i datetime
    rw [atDate_value noDate, Bool.false_or] at datetime
    obtain ⟨e, failed⟩ := parseDatetime_of_time datetime
    rw [failed] at value
    cases value
  obtain ⟨n, rest, -, -, number⟩ := parseNumber_ok plain value
  refine ⟨n, ?_, number⟩
  rw [here] at rest
  rcases List.append_eq_append_iff.mp rest with ⟨more, longer, back⟩ | ⟨more, shorter, back⟩
  · rcases more with _ | ⟨newline, more⟩
    · rw [longer, List.append_nil]
    · obtain ⟨rfl, -⟩ := List.cons.inj back
      obtain ⟨-, newline, -⟩ := isDecimalByte_plain _ (n.bytes (show ch '\n' ∈ n.text by rw [longer]; simp))
      exact absurd rfl newline
  · rcases more with _ | ⟨byte, more⟩
    · rw [shorter, List.append_nil]
    · have seen := visible byte (by rw [shorter]; simp)
      rw [expectLineEnd_visible back seen] at line
      cases line

/-- No time is read where a decimal number ends its line: it has no colon. -/
theorem atTime_of_decimal {n : DecimalText} (here : c.rest = n.text ++ [ch '\n']) :
    c.atTime = false := by
  by_contra time
  rw [Bool.not_eq_false, atTime, Bool.and_eq_true, beq_iff_eq] at time
  have colon := @peekChar_mem c 2 (by rw [time.2]; decide)
  rw [time.2, here, List.mem_append] at colon
  rcases colon with mem | mem
  · exact (isDecimalByte_plain _ (n.bytes mem)).2.2 rfl
  · exact absurd mem (by decide)

/-- A decimal number the type holds is read as the value of its line. -/
theorem accepted_of_decimal {n : DecimalText} (text : n.text = w)
    (visible : ∀ b ∈ w, isVisible b = true) (noDate : startsLikeDate w = false)
    (noPrefix : ¬ Prefixed (dropSign w)) (number : (Number.ofText n.spelling.text).isNan = false) :
    Toml.deserialize (pairLine w) =
      .ok [([ch 'k'], .number (Number.ofText n.spelling.text))] := by
  subst text
  have here := rest_atValue n.text
  obtain ⟨digit, more, body, isDigit⟩ := n.front
  obtain ⟨b, tail, split, starts⟩ := n.starts
  have first := visible b (by rw [split]; exact List.mem_cons_self)
  have opening : (atValue n.text).rest = b :: (tail ++ [ch '\n']) := by
    rw [here, split]
    rfl
  have signed : (atValue n.text).rest = Sign.text n.sign ++ digit :: (more ++ [ch '\n']) := by
    rw [here]
    nth_rewrite 1 [body]
    simp
  have afterSign : ((atValue n.text).skip (Sign.text n.sign).length).rest =
      dropSign n.text ++ [ch '\n'] := by
    rw [DecimalText.dropSign_text body isDigit]
    exact rest_skip_of_at signed
  have ended : Ended [ch '\n'] := ⟨ch '\n', [], rfl, by decide⟩
  have read := parseNumber_of_at here ended
    (by rw [here]; exact fun h => noPrefix (prefixed_dropSign (prefixed_line h)))
    (by rw [afterSign]; exact fun h => noPrefix (prefixed_line h)) number
  have word := atInfOrNan_of_digit signed isDigit
  have ascii : Toml.Ascii n.text := fun b mem => (isDecimalByte_plain b (n.bytes mem)).1
  apply accepted_of_value split first ascii
  · intro turns
    rw [parseValue_of_start opening starts, word, atDate_value noDate, atTime_of_decimal here]
    exact read
  · exact rest_skip_of_at here

end Cursor

/-- A value that starts with a digit or a sign, and neither like a date nor with the prefix of
another base, is accepted exactly where it is a decimal number of TOML whose power of ten asks
for no more digits than it may. It is then read as exactly the rational it denotes, and as
floating point where it has a point or a power of ten. -/
theorem decimal_exact {w : Text}
    (starts : ∃ b, w.head? = some b ∧ (isDigit b = true ∨ isSign b = true))
    (visible : ∀ b ∈ w, Cursor.isVisible b = true) (noDate : startsLikeDate w = false)
    (noPrefix : ¬ Prefixed (dropSign w)) (short : w.length < 5 * 10 ^ 8) :
    ((∃ result, Toml.deserialize (Cursor.pairLine w) = .ok result) ↔
      ∃ n : DecimalText, n.text = w ∧ ¬ n.spelling.TooLong) ∧
    ∀ n : DecimalText, n.text = w → ¬ n.spelling.TooLong → ∃ v : Number,
      Toml.deserialize (Cursor.pairLine w) = .ok [([ch 'k'], .number v)] ∧
        v.Exactly n.spelling.value ∧
        v.isFloatingPoint = (n.fraction.isSome || n.power.isSome) := by
  have form (n : DecimalText) (text : n.text = w) :=
    n.spelling.canonicalText_form (n.length_spelling.trans_lt (by rwa [text]))
  have reads (n : DecimalText) (text : n.text = w) (fits : ¬ n.spelling.TooLong) :
      ∃ v : Number, Toml.deserialize (Cursor.pairLine w) = .ok [([ch 'k'], .number v)] ∧
        v.Exactly n.spelling.value ∧
        v.isFloatingPoint = (n.fraction.isSome || n.power.isSome) := by
    have leaves := (form n text).2 fits
    have number : (Number.ofText n.spelling.text).isNan = false :=
      beq_eq_false_iff_ne.mpr leaves.1.ne_nan
    refine ⟨Number.ofText n.spelling.text, ?_, Number.exactly leaves, ?_⟩
    · exact Cursor.accepted_of_decimal text visible noDate noPrefix number
    · rw [Number.isFloatingPoint, number]
      exact Cursor.isWrittenAsFloatingPoint_spelling n
  refine ⟨⟨?_, ?_⟩, reads⟩
  · rintro ⟨result, accepted⟩
    obtain ⟨n, text, number⟩ :=
      Cursor.decimal_of_accepted starts visible noDate noPrefix accepted
    refine ⟨n, text, fun tooLong => ?_⟩
    have nan : (Number.ofText n.spelling.text).isNan = true := by
      rw [Number.isNan_iff]
      exact (form n text).1 tooLong
    rw [nan] at number
    cases number
  · rintro ⟨n, text, fits⟩
    obtain ⟨v, accepted, -, -⟩ := reads n text fits
    exact ⟨_, accepted⟩

/-- `-1_2.50e+3` -/
def twelveThousand : DecimalText where
  sign := some .minus
  integer := "1_2".toList.map ch
  fraction := some ("50".toList.map ch)
  power := some ⟨ch 'e', some .plus, [ch '3'], by decide,
    isRun_of_check (by decide) (by decide) (by decide)⟩
  integerRun := isRun_of_check (by decide) (by decide) (by decide)
  leading := by decide
  fractionRun := by
    intro f same
    obtain rfl := Option.some.inj same
    exact isRun_of_check (by decide) (by decide) (by decide)

theorem value_twelveThousand : twelveThousand.spelling.value = -12500 := by
  have digits : decimal twelveThousand.spelling.integer
      (twelveThousand.spelling.fraction.getD []) = 1250 / 100 := by
    have natural : natural (twelveThousand.spelling.integer ++
      twelveThousand.spelling.fraction.getD []) = 1250 := by decide
    have places : (twelveThousand.spelling.fraction.getD []).length = 2 := by decide
    rw [decimal, natural, places]
    norm_num
  have power : (twelveThousand.spelling.power.map Power.shift).getD 0 = 3 := by decide
  rw [Spelling.value, digits, power]
  norm_num [twelveThousand, DecimalText.spelling]

theorem decimal_exact_twelveThousand : ∃ v : Number,
    Toml.deserialize (Cursor.pairLine ("-1_2.50e+3".toList.map ch)) = .ok [([ch 'k'], .number v)] ∧
      v.Exactly (-12500) ∧ v.isFloatingPoint = true := by
  have noPrefix : ¬ Prefixed (dropSign ("-1_2.50e+3".toList.map ch)) := by
    rintro ⟨letter, more, same, known⟩
    obtain ⟨zero, -⟩ := List.cons.inj same
    exact absurd zero (by decide)
  have fits : ¬ twelveThousand.spelling.TooLong := by
    rintro ⟨-, -, long⟩
    revert long
    decide
  rw [← value_twelveThousand]
  exact (@decimal_exact ("-1_2.50e+3".toList.map ch) ⟨ch '-', rfl, Or.inr (by decide)⟩
    (List.all_eq_true.mp (by decide)) (by decide) noPrefix (by decide)).2 twelveThousand rfl fits

end Dross
