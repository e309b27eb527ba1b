import Dross.Format.ScalarForms
import Dross.Type.ExactDivision

/-!
# How a number comes back

A number is written as its canonical text, with a fraction of zero where the text alone
would come back as an integer, or as one that no TOML integer can be.
-/

namespace Dross

namespace Number

/-- Beyond what a signed integer of 64 bits holds. -/
def BeyondInt64 (n : Number) : Prop := n.value < -2 ^ 63 ∨ 2 ^ 63 - 1 < n.value

instance decidableBeyondInt64 (n : Number) : Decidable n.BeyondInt64 :=
  inferInstanceAs (Decidable (n.value < -2 ^ 63 ∨ 2 ^ 63 - 1 < n.value))

theorem writes_int64Max : Writes ("9223372036854775807".toList.map ch) ((2 ^ 63 - 1 : Nat) : ℚ) :=
  writes_natural (t := "9223372036854775807".toList.map ch) (by decide) (by decide)

theorem value_int64Max : int64Max.isNan = false ∧ int64Max.value = 2 ^ 63 - 1 := by
  obtain ⟨-, number, value⟩ := ofText_writes writes_int64Max
  refine ⟨number, ?_⟩
  rw [int64Max, value]
  norm_num

theorem value_int64Min : int64Min.isNan = false ∧ int64Min.value = -2 ^ 63 := by
  have magnitude : Writes ("9223372036854775808".toList.map ch) ((2 ^ 63 : Nat) : ℚ) :=
    writes_natural (t := "9223372036854775808".toList.map ch) (by decide) (by decide)
  obtain ⟨canonical, signed⟩ := @Writes.withSign _ _ true magnitude (fun _ => by norm_num)
  have stored : int64Min.number = "-9223372036854775808".toList.map ch := canonical.canonicalText
  refine ⟨?_, ?_⟩
  · rw [isNan, stored]
    exact beq_eq_false_iff_ne.mpr canonical.ne_nan
  · rw [value, stored]
    refine Eq.trans signed ?_
    norm_num

theorem outOfInt64_iff {n : Number} (number : n.isNan = false) :
    n.outOfInt64 = true ↔ n.BeyondInt64 := by
  obtain ⟨maxNumber, maxValue⟩ := value_int64Max
  obtain ⟨minNumber, minValue⟩ := value_int64Min
  have above : n.compare int64Max > 0 ↔ 2 ^ 63 - 1 < n.value := by
    rw [gt_iff_lt, ← neg_neg_iff_pos, ← compare_swap, compare_lt, rank_number maxNumber,
      rank_number number, WithBot.coe_lt_coe, maxValue]
  have below : n.compare int64Min < 0 ↔ n.value < -2 ^ 63 := by
    rw [compare_lt, rank_number minNumber, rank_number number, WithBot.coe_lt_coe, minValue]
  rw [outOfInt64, Bool.or_eq_true, decide_eq_true_iff, decide_eq_true_iff, above, below,
    BeyondInt64, or_comm]

/-- What comes of a number that is written and read. -/
def comesBack (n : Number) : Number :=
  { n with
    floatingPoint := n.floatingPoint || (n.isInteger && decide n.BeyondInt64)
    fractional := fun point => by simp [n.fractional point] }

theorem eq_of_parts {a b : Number} (number : a.number = b.number)
    (floatingPoint : a.floatingPoint = b.floatingPoint) : a = b := by
  obtain ⟨text, flag, stored, fractional⟩ := a
  obtain ⟨text', flag', stored', fractional'⟩ := b
  obtain rfl : text = text' := number
  obtain rfl : flag = flag' := floatingPoint
  rfl

section Written

variable {n : Number} {integer fraction : Text} {negative : Bool}

theorem point_mem_joined (some : fraction ≠ []) :
    ch '.' ∈ signed negative (joined integer fraction) := by
  have inside : ch '.' ∈ joined integer fraction := by
    rw [Cursor.joined_eq, if_neg some]
    simp
  cases negative with
  | false => exact inside
  | true => exact List.mem_cons_of_mem _ inside

/-- A fraction of zero is dropped again. -/
theorem canonicalText_pointZero (parts : CanonicalParts integer [])
    (canonical : Canonical (signed negative integer)) :
    canonicalText (signed negative (joined integer [ch '0'])) = signed negative integer := by
  have zeros : AllDigits [ch '0'] := by
    rw [AllDigits.cons]
    exact ⟨by decide, AllDigits.nil⟩
  obtain ⟨s, plain, text, value⟩ := spelling_joined negative parts.integerDigits zeros
    parts.trimmed.1
  have read := Spelling.canonicalText_plain plain
  rw [text, value] at read
  have same := @textValue_signed integer [] negative parts.integerDigits parts.trimmed.1
  have none : joined integer [] = integer := if_pos rfl
  have zero : decimal integer [ch '0'] = decimal integer [] := decimal_zeros integer [] 1
  rw [none] at same
  refine read.1.unique canonical (read.2.trans ?_)
  rw [same, zero]

theorem integral_iff (number : n.isNan = false) : n.isInteger = true ↔ ch '.' ∉ n.number := by
  rw [isInteger, number]
  simp

/-- An integer of a type that TOML reads as a float, or out of its range, is given a point. -/
theorem numberText_marked (number : n.isNan = false) (integral : n.isInteger = true)
    (parts : CanonicalParts integer []) (written : n.number = signed negative integer)
    (marked : (n.isFloatingPoint || n.outOfInt64) = true) :
    Toml.numberText n = .ok (signed negative (joined integer [ch '0'])) ∧
      ofText (signed negative (joined integer [ch '0'])) = n.comesBack := by
  have text : signed negative (joined integer [ch '0']) = n.number ++ [ch '.', ch '0'] := by
    rw [written]
    cases negative <;> rfl
  constructor
  · rw [text, Toml.numberText, number, integral, marked]
    rfl
  · apply eq_of_parts
    · exact (canonicalText_pointZero parts (written ▸ canonical_of number)).trans written.symm
    · have point : ch '.' ∈ signed negative (joined integer [ch '0']) := point_mem_joined (by simp)
      have left : isWrittenAsFloatingPoint (signed negative (joined integer [ch '0'])) = true :=
        List.any_eq_true.mpr ⟨_, point, rfl⟩
      have right : n.comesBack.floatingPoint = true := by
        rw [Bool.or_eq_true, outOfInt64_iff number, isFloatingPoint, number] at marked
        rw [comesBack]
        simpa [integral] using marked
      exact left.trans right.symm

theorem numberText_plain (number : n.isNan = false) (integral : n.isInteger = true)
    (digits : AllDigits integer) (written : n.number = signed negative integer)
    (unmarked : (n.isFloatingPoint || n.outOfInt64) = false) :
    Toml.numberText n = .ok n.number ∧ ofText n.number = n.comesBack := by
  constructor
  · rw [Toml.numberText, number, integral, unmarked]
    rfl
  · apply eq_of_parts
    · exact (canonical_of number).canonicalText
    · have left : isWrittenAsFloatingPoint n.number = false := by
        have digits := digits_integral digits
        rw [written]
        cases negative with
        | false => exact digits
        | true => exact digits
      have right : n.comesBack.floatingPoint = false := by
        rw [← Bool.not_eq_true, Bool.or_eq_true, not_or, outOfInt64_iff number, isFloatingPoint,
          number] at unmarked
        rw [comesBack]
        simpa [integral] using unmarked
      exact left.trans right.symm

theorem numberText_fractional (number : n.isNan = false) (fractional : n.isInteger ≠ true) :
    Toml.numberText n = .ok n.number ∧ ofText n.number = n.comesBack := by
  have point : ch '.' ∈ n.number := by
    rw [ne_eq, integral_iff number, not_not] at fractional
    exact fractional
  constructor
  · rw [Toml.numberText, number, Bool.eq_false_iff.mpr fractional]
    rfl
  · apply eq_of_parts
    · exact (canonical_of number).canonicalText
    · have left : isWrittenAsFloatingPoint n.number = true :=
        List.any_eq_true.mpr ⟨_, point, rfl⟩
      have right : n.comesBack.floatingPoint = true := by
        rw [comesBack]
        simp [n.fractional point]
      exact left.trans right.symm

/-- The text written for a number is that of one, and comes back as its image. -/
theorem numberText_eq (number : n.isNan = false) : ∃ negative integer fraction,
    AllDigits integer ∧ AllDigits fraction ∧ Trimmed integer ∧
      Toml.numberText n = .ok (signed negative (joined integer fraction)) ∧
      ofText (signed negative (joined integer fraction)) = n.comesBack := by
  obtain ⟨negative, i, f, parts, sign, written⟩ := canonical_of number
  by_cases integral : n.isInteger = true
  · have none : f = [] := by
      by_contra some
      have noPoint := (integral_iff number).mp integral
      rw [written] at noPoint
      exact noPoint (point_mem_joined some)
    subst none
    have whole : joined i [] = i := if_pos rfl
    rw [whole] at written
    cases marked : n.isFloatingPoint || n.outOfInt64 with
    | true =>
      have zero : AllDigits [ch '0'] := AllDigits.cons.mpr ⟨by decide, AllDigits.nil⟩
      exact ⟨negative, i, [ch '0'], parts.integerDigits, zero, parts.trimmed,
        numberText_marked number integral parts written marked⟩
    | false =>
      refine ⟨negative, i, [], parts.integerDigits, parts.fractionDigits, parts.trimmed, ?_⟩
      rw [whole, ← written]
      exact numberText_plain number integral parts.integerDigits written marked
  · refine ⟨negative, i, f, parts.integerDigits, parts.fractionDigits, parts.trimmed, ?_⟩
    rw [← written]
    exact numberText_fractional number integral

end Written

end Number

namespace Cursor

/-- What is written for a number is read as its image. -/
theorem parseValue_numberText {n : Number} {text more : Text} {c : Cursor} (turns : Nat)
    (written : Toml.numberText n = .ok text) (here : c.rest = text ++ more) (ended : Ended more) :
    parseValue (turns + 1) c = .ok (.number n.comesBack, c.skip text.length) := by
  have number : n.isNan = false := by
    by_contra nan
    rw [Toml.numberText, if_pos (by simpa using nan)] at written
    cases written
  obtain ⟨negative, integer, fraction, hi, hf, trimmed, same, back⟩ := Number.numberText_eq number
  rw [same] at written
  obtain rfl := Except.ok.inj written
  rw [← back, ← parseNumber_joined hi hf trimmed here ended]
  obtain ⟨d, ds, rfl⟩ := List.exists_cons_of_ne_nil trimmed.1
  have digit := hi d List.mem_cons_self
  have letter : d ≠ ch 'i' ∧ d ≠ ch 'n' :=
    ⟨isDigit_ne digit (by decide), isDigit_ne digit (by decide)⟩
  have unsigned : ∀ b ∈ joined (d :: ds) fraction, b ≠ ch '-' ∧ b ≠ ch ':' := by
    intro b mem
    rw [joined_eq] at mem
    have digits : isDigit b = true → b ≠ ch '-' ∧ b ≠ ch ':' :=
      fun digit => ⟨isDigit_ne digit (by decide), isDigit_ne digit (by decide)⟩
    rcases List.mem_append.mp mem with mem | mem
    · exact digits (hi b mem)
    · split at mem
      · cases mem
      · rcases List.mem_cons.mp mem with rfl | mem
        · decide
        · exact digits (hf b mem)
  have head : ∃ tail, joined (d :: ds) fraction = d :: tail := by
    rw [joined_eq]
    exact ⟨_, rfl⟩
  obtain ⟨tail, joined'⟩ := head
  cases negative with
  | false =>
    have opening : c.rest = d :: (tail ++ more) := by
      rw [here, signed, if_neg Bool.false_ne_true, joined']
      rfl
    have sign : d ≠ ch '+' ∧ d ≠ ch '-' :=
      ⟨isDigit_ne digit (by decide), isDigit_ne digit (by decide)⟩
    exact parseValue_number turns opening (Or.inl digit) (not_infOrNan opening sign letter)
      (not_datetime here ended unsigned)
  | true =>
    have opening : c.rest = ch '-' :: d :: (tail ++ more) := by
      rw [here, signed, if_pos rfl, joined']
      rfl
    have first : c.peekChar 0 = ch '-' := peekChar_of_at [] opening
    have noDigits (count : Nat) (positive : 0 < count) : c.digitsAhead 0 count = false := by
      rw [← Bool.not_eq_true, digitsAhead_iff]
      intro digits
      have digit := digits 0 positive
      rw [Nat.zero_add, first] at digit
      cases digit
    have datetime : (c.atDate || c.atTime) = false := by
      rw [atDate, atTime, noDigits 4 (by decide), noDigits 2 (by decide)]
      rfl
    exact parseValue_number turns opening (Or.inr rfl) (not_negative_infOrNan opening letter) datetime

end Cursor

end Dross
