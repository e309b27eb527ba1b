import Dross.Type.Number
import Dross.Type.Expansion
import Dross.Type.TimestampStorage

/-!
# Calls that may throw

The functions behind a number and a timestamp with the calls of the standard library that
throw outside their domain. A function without a result has thrown.
-/

namespace Dross

namespace Throwing

/-! ## The standard library -/

/-- `text.substr(pos, count)` -/
def substr (text : Text) (pos count : Nat) : Option Text :=
  if pos ≤ text.length then some ((text.drop pos).take count) else none

/-- `text.substr(pos)` -/
def substrFrom (text : Text) (pos : Nat) : Option Text :=
  if pos ≤ text.length then some (text.drop pos) else none

/-- `std::stoi` and `std::stoll`, of text without blanks or a sign and for values up to a limit. -/
def stoInteger (limit : Nat) (text : Text) : Option Nat :=
  let digits := text.takeWhile isDigit
  if digits = [] ∨ limit < natural digits then none else some (natural digits)

def stoi : Text → Option Nat := stoInteger (2 ^ 31 - 1)

def stoll : Text → Option Nat := stoInteger (2 ^ 63 - 1)

theorem substrFrom_eq {text : Text} {pos : Nat} (inside : pos ≤ text.length) :
    substrFrom text pos = some (text.drop pos) :=
  if_pos inside

theorem substr_front (text : Text) (count : Nat) : substr text 0 count = some (text.take count) :=
  if_pos (Nat.zero_le _)

theorem stoInteger_digits {limit : Nat} {text : Text} (digits : AllDigits text)
    (nonempty : text ≠ []) (fits : natural text ≤ limit) :
    stoInteger limit text = some (natural text) := by
  have all : text.takeWhile isDigit = text := List.takeWhile_eq_self_iff.mpr digits
  unfold stoInteger
  rw [all, if_neg]
  rintro (nil | large)
  · exact nonempty nil
  · exact absurd fits (Nat.not_le.mpr large)

/-- So many digits fit in a type that holds as many nines. -/
theorem stoInteger_short {limit width : Nat} {text : Text} (digits : AllDigits text)
    (nonempty : text ≠ []) (short : text.length ≤ width) (fits : 10 ^ width ≤ limit + 1) :
    stoInteger limit text = some (natural text) := by
  apply stoInteger_digits digits nonempty
  have small := natural_lt digits
  have bound := Nat.pow_le_pow_right (show 10 > 0 by omega) short
  omega

/-! ## Numbers -/

/-- `str.find` of a byte, and the text before and after it. -/
def splitAtPoint (text : Text) : Option (Text × Text) :=
  let dot := (beforePoint text).length
  if dot = text.length then some (text, [])
  else do
    let before ← substr text 0 dot
    let after ← substrFrom text (dot + 1)
    some (before, after)

def numberParts (num : Text) : Option NumberParts := do
  let negative := num.head? == some (ch '-')
  let absNum ← if negative then substrFrom num 1 else some num
  let (integer, fractional) ← splitAtPoint absNum
  some ⟨negative, integer, fractional⟩

/-- The digits with the point among them, where it does not come before or after them all. -/
def placePoint (digits : Text) (integerDigits : Int) : Option Text :=
  let length : Int := digits.length
  if integerDigits ≤ 0 then
    some ([ch '0', ch '.'] ++ List.replicate (-integerDigits).toNat (ch '0') ++ digits)
  else if integerDigits ≥ length then
    some (digits ++ List.replicate (integerDigits - length).toNat (ch '0'))
  else do
    let before ← substr digits 0 integerDigits.toNat
    let after ← substrFrom digits integerDigits.toNat
    some (before ++ [ch '.'] ++ after)

/-- How far an exponent moves the point, its sign and leading zeros aside. -/
def exponentShift (exponent : Text) : Option Nat :=
  if exponent = [] then some 0 else stoll exponent

def expandExponent (str : Text) : Option Text :=
  let expPos := (str.takeWhile (fun c => ! isExponentMark c)).length
  if expPos = str.length then some str
  else do
    let negative := str.head? == some (ch '-')
    let start := if str.head? = some (ch '-') ∨ str.head? = some (ch '+') then 1 else 0
    let mantissa ← substr str start (expPos - start)
    let digits := mantissa.filter (fun c => ! c == ch '.')
    let point := (mantissa.takeWhile (fun c => ! c == ch '.')).length
    let writtenDigits := digits.length
    if digits.all (fun c => c == ch '0') then some [ch '0']
    else
      let first := (digits.takeWhile (fun c => c == ch '0')).length
      let digits := dropZeros digits
      let leading : Int := point - first
      let written ← substrFrom str (expPos + 1)
      let exponentNegative := written.head? == some (ch '-')
      let exponent := dropZeros (dropSign written)
      if exponent.length > 9 then some nanValue
      else
        let shift ← exponentShift exponent
        let integerDigits : Int := leading + if exponentNegative then -(shift : Int) else shift
        let length : Int := digits.length
        let total : Int :=
          if integerDigits ≤ 0 then 1 - integerDigits + length else max integerDigits length
        if total > (max maxExpandedDigits writtenDigits : Nat) then some nanValue
        else
          let result ← placePoint digits integerDigits
          some (if negative then ch '-' :: result else result)

def canonicalExpanded (expanded : Text) : Option Text := do
  let negative := expanded.head? == some (ch '-')
  let start := if expanded.head? = some (ch '-') ∨ expanded.head? = some (ch '+') then 1 else 0
  let unsignedPart ← substrFrom expanded start
  let (integer, fraction) ← splitAtPoint unsignedPart
  let integer := dropZeros integer
  let integer := if integer.isEmpty then [ch '0'] else integer
  let fraction := dropTrailingZeros fraction
  let result := joined integer fraction
  some (if negative && result != [ch '0'] then ch '-' :: result else result)

def canonicalText (str : Text) : Option Text :=
  if ! isValidNumber str then some nanValue
  else do
    let expanded ← expandExponent str
    if expanded == nanValue then some nanValue else canonicalExpanded expanded

/-- Up to where a search stops, and from there. -/
theorem cut_takeWhile (p : UInt8 → Bool) (text : Text) :
    text.take (text.takeWhile p).length = text.takeWhile p ∧
      text.drop (text.takeWhile p).length = text.dropWhile p ∧
      (text.takeWhile p).length ≤ text.length := by
  have whole : text.takeWhile p ++ text.dropWhile p = text := List.takeWhile_append_dropWhile
  generalize text.takeWhile p = front at *
  generalize text.dropWhile p = back at *
  subst whole
  exact ⟨List.take_left, List.drop_left, by simp⟩

theorem splitAtPoint_eq (text : Text) :
    splitAtPoint text = some (beforePoint text, afterPoint text) := by
  obtain ⟨front, back, inside⟩ := cut_takeWhile (fun c => ! c == ch '.') text
  unfold splitAtPoint beforePoint afterPoint
  by_cases none : (text.takeWhile (fun c => ! c == ch '.')).length = text.length
  · rw [if_pos none, ← front, ← back, none, List.take_length, List.drop_length]
    rfl
  · rw [if_neg none, substr_front, substrFrom_eq (by omega), front, ← back, List.drop_drop]
    rfl

theorem head_start (text : Text) :
    text.drop (if text.head? = some (ch '-') ∨ text.head? = some (ch '+') then 1 else 0) =
        dropSign text ∧
      (if text.head? = some (ch '-') ∨ text.head? = some (ch '+') then 1 else 0) ≤ text.length := by
  cases text with
  | nil => exact ⟨rfl, Nat.le_refl _⟩
  | cons c rest =>
    rw [List.head?_cons, dropSign, isSign]
    by_cases sign : c = ch '-' ∨ c = ch '+'
    · rw [if_pos (by simpa using sign), if_pos (by simpa using sign)]
      exact ⟨rfl, Nat.succ_le_succ (Nat.zero_le _)⟩
    · rw [if_neg (by simpa using sign), if_neg (by simpa using sign)]
      exact ⟨rfl, Nat.zero_le _⟩

theorem numberParts_eq (num : Text) : numberParts num = some (Dross.numberParts num) := by
  unfold numberParts Dross.numberParts
  by_cases negative : (num.head? == some (ch '-')) = true
  · have inside : 1 ≤ num.length := by
      cases num with
      | nil => cases negative
      | cons => exact Nat.succ_le_succ (Nat.zero_le _)
    simp only [negative, if_true, substrFrom_eq inside, Option.bind_eq_bind, Option.bind_some,
      splitAtPoint_eq]
  · simp only [negative, Bool.false_eq_true, if_false, Option.bind_eq_bind, Option.bind_some,
      splitAtPoint_eq]

theorem placePoint_eq (digits : Text) (integerDigits : Int) :
    placePoint digits integerDigits = some (Dross.placePoint digits integerDigits) := by
  unfold placePoint Dross.placePoint
  simp only
  split
  · rfl
  split
  · rfl
  rw [substr_front, substrFrom_eq (by omega)]
  rfl

theorem canonicalExpanded_eq (expanded : Text) :
    canonicalExpanded expanded = some (Dross.canonicalExpanded expanded) := by
  obtain ⟨cut, inside⟩ := head_start expanded
  unfold canonicalExpanded Dross.canonicalExpanded
  simp only [substrFrom_eq inside, cut, Option.bind_eq_bind, Option.bind_some, splitAtPoint_eq]

theorem exponentShift_eq {exponent : Text} (digits : AllDigits exponent)
    (short : exponent.length ≤ 9) : exponentShift exponent = some (natural exponent) := by
  unfold exponentShift
  split
  · rename_i nil
    rw [nil]
    rfl
  · rename_i nonempty
    exact stoInteger_short digits nonempty short (by decide)

/-- The mantissa between the sign and the exponent mark. -/
theorem substr_mantissa (s : Spelling) :
    substr s.text (if s.text.head? = some (ch '-') ∨ s.text.head? = some (ch '+') then 1 else 0)
      ((Sign.text s.sign ++ s.mantissa).length -
        (if s.text.head? = some (ch '-') ∨ s.text.head? = some (ch '+') then 1 else 0)) =
      some s.mantissa := by
  obtain ⟨cut, inside⟩ := head_start s.text
  have body : dropSign s.text = s.mantissa ++ s.powerText := dropSign_text s.body_not_sign
  rw [body] at cut
  have lengths := congrArg List.length cut
  have whole : s.text.length = (Sign.text s.sign).length + (s.mantissa ++ s.powerText).length :=
    List.length_append
  generalize (if s.text.head? = some (ch '-') ∨ s.text.head? = some (ch '+') then 1 else 0) =
    start at *
  rw [List.length_drop] at lengths
  unfold substr
  rw [if_pos inside, cut, List.length_append, show (Sign.text s.sign).length + s.mantissa.length - start =
    s.mantissa.length by omega, List.take_left]

theorem expandExponent_eq (s : Spelling) :
    expandExponent s.text = some (Dross.expandExponent s.text) := by
  have mantissa := substr_mantissa s
  have signless : dropSign (Sign.text s.sign ++ s.mantissa) = s.mantissa := by
    apply dropSign_text
    intro c first
    apply s.body_not_sign c
    rw [List.head?_append, first]
    rfl
  unfold expandExponent Dross.expandExponent
  rw [s.text_front, s.text_back]
  rcases power : s.power with _ | p
  · have nil : s.powerText = [] := by rw [Spelling.powerText, power]; rfl
    have whole : s.text = Sign.text s.sign ++ s.mantissa := by
      rw [Spelling.text, nil, List.append_nil]
    simp only [nil, List.isEmpty_nil, if_true, ← whole]
  · have text : s.powerText = p.mark :: (Sign.text p.sign ++ p.digits) := by
      rw [Spelling.powerText, power]
      rfl
    have written : s.text.drop ((Sign.text s.sign ++ s.mantissa).length + 1) =
        Sign.text p.sign ++ p.digits := by
      rw [Spelling.text, ← List.append_assoc, text, ← List.drop_drop, List.drop_left]
      rfl
    have longer : (Sign.text s.sign ++ s.mantissa).length + 1 ≤ s.text.length := by
      rw [Spelling.text, ← List.append_assoc, text, @List.length_append _ _ (p.mark :: _),
        List.length_cons]
      omega
    have exponent : dropSign (Sign.text p.sign ++ p.digits) = p.digits :=
      dropSign_text (digits_not_sign p.allDigits)
    simp only [mantissa, signless, written, exponent, text, substrFrom_eq longer, List.isEmpty_cons,
      Bool.false_eq_true, if_false, Option.bind_eq_bind, Option.bind_some, List.drop_succ_cons,
      List.drop_zero, if_neg
      (show ¬ (Sign.text s.sign ++ s.mantissa).length = s.text.length by omega)]
    split
    · rfl
    split
    · rfl
    rename_i short
    have shift := exponentShift_eq (AllDigits.of_subset
      (fun c mem => (List.dropWhile_sublist _).subset mem) p.allDigits) (Nat.not_lt.mp short)
    rw [← dropZeros] at shift
    simp only [shift, Option.bind_some, placePoint_eq]
    exact (apply_ite some _ _ _).symm

theorem canonicalText_eq (str : Text) : canonicalText str = some (Dross.canonicalText str) := by
  unfold canonicalText Dross.canonicalText
  by_cases valid : isValidNumber str = true
  · obtain ⟨s, rfl⟩ := (isValidNumber_iff str).mp valid
    simp only [valid, Bool.not_true, Bool.false_eq_true, if_false, expandExponent_eq s,
      Option.bind_eq_bind, Option.bind_some]
    split
    · rfl
    · exact canonicalExpanded_eq _
  · rw [if_pos (by simpa using valid), if_pos (by simpa using valid)]

/-- The leading zeros of a product, but never its last digit. -/
def trimZeros (result : Text) : Option Text :=
  substrFrom result (min (result.takeWhile (fun c => c == ch '0')).length (result.length - 1))

def insertPoint (result : Text) (places : Nat) : Option Text :=
  if 0 < places then
    let result :=
      if result.length ≤ places then
        List.replicate (places - result.length + 1) (ch '0') ++ result
      else result
    let decimalPos := result.length - places
    if decimalPos = 0 then some ([ch '0', ch '.'] ++ result)
    else do
      let before ← substr result 0 decimalPos
      let after ← substrFrom result decimalPos
      some (before ++ [ch '.'] ++ after)
  else some result

def multiplyPositiveNumbers (a b : Text) : Option Text := do
  let pa ← numberParts a
  let pb ← numberParts b
  let numA := pa.integer ++ pa.fractional
  let numB := pb.integer ++ pb.fractional
  let totalDecimalPlaces := pa.fractional.length + pb.fractional.length
  if numA = [ch '0'] || numB = [ch '0'] then some [ch '0']
  else
    let result := multiplyRows numA numB numA.length
      (List.replicate (numA.length + numB.length) (ch '0'))
    let trimmed ← trimZeros result
    let pointed ← insertPoint trimmed totalDecimalPlaces
    canonicalText pointed

def addPositiveNumbers (a b : Text) : Option Text := do
  let pa ← numberParts a
  let pb ← numberParts b
  let maxFrac := max pa.fractional.length pb.fractional.length
  let fraction := addFractions (padded pa.fractional maxFrac).reverse
    (padded pb.fractional maxFrac).reverse 0 []
  let integer := addIntegers pa.integer.reverse pb.integer.reverse fraction.2 []
  canonicalText (combined integer fraction.1)

theorem trimZeros_eq (result : Text) : trimZeros result = some (Dross.trimZeros result) := by
  unfold trimZeros
  rw [substrFrom_eq (by omega)]
  congr 1
  induction result with
  | nil => rfl
  | cons c rest ih =>
    cases rest with
    | nil => simp [Dross.trimZeros]
    | cons d rest =>
      rw [Dross.trimZeros, List.takeWhile_cons]
      split
      · rw [← ih, List.length_cons, List.length_cons, List.length_cons, Nat.add_sub_cancel,
          Nat.add_sub_cancel, Nat.succ_min_succ]
        rfl
      · rfl
      · exact List.cons_ne_nil d rest

theorem insertPoint_eq (result : Text) (places : Nat) :
    insertPoint result places = some (Dross.insertPoint result places) := by
  unfold insertPoint Dross.insertPoint
  simp only
  generalize (if result.length ≤ places then
    List.replicate (places - result.length + 1) (ch '0') ++ result else result) = padded
  split
  · simp only [substr_front, substrFrom_eq (Nat.sub_le padded.length places), Option.bind_eq_bind,
      Option.bind_some]
    exact (apply_ite some _ _ _).symm
  · rfl

theorem multiplyPositiveNumbers_eq (a b : Text) :
    multiplyPositiveNumbers a b = some (Dross.multiplyPositiveNumbers a b) := by
  unfold multiplyPositiveNumbers Dross.multiplyPositiveNumbers
  simp only [numberParts_eq, trimZeros_eq, insertPoint_eq, canonicalText_eq, Option.bind_eq_bind,
    Option.bind_some]
  exact (apply_ite some _ _ _).symm

theorem addPositiveNumbers_eq (a b : Text) :
    addPositiveNumbers a b = some (Dross.addPositiveNumbers a b) := by
  unfold addPositiveNumbers Dross.addPositiveNumbers
  simp only [numberParts_eq, canonicalText_eq, Option.bind_eq_bind, Option.bind_some]

/-! ## Timestamps -/

/-- What a group of digits of the pattern of a timestamp comes to. -/
theorem stoi_group {count n : Nat} {s rest : Text} (positive : 0 < count) (short : count ≤ 4)
    (h : takeDigits count s = some (n, rest)) : stoi (s.take count) = some n := by
  unfold takeDigits at h
  split at h
  · rename_i group
    cases h
    refine stoInteger_short group.2 ?_ (Nat.le_of_eq group.1) ?_
    · intro nil
      rw [nil] at group
      exact absurd group.1.symm positive.ne'
    · have width := Nat.pow_le_pow_right (show 10 > 0 by omega) short
      omega
  · cases h

/-- The nanoseconds of a fraction. -/
def fractionNanoseconds (digits : Text) : Option Nat := do
  let front ← substr digits 0 9
  stoll (front ++ List.replicate (9 - front.length) (ch '0'))

theorem fractionNanoseconds_eq {digits : Text} (h : AllDigits digits) :
    fractionNanoseconds digits = some (Timestamp.fractionNanoseconds digits) := by
  obtain ⟨all, nine⟩ := Timestamp.filled_digits h
  unfold fractionNanoseconds
  rw [substr_front, Option.bind_eq_bind, Option.bind_some]
  refine stoInteger_short all ?_ (Nat.le_of_eq nine) (by decide)
  intro nil
  rw [nil] at nine
  cases nine

end Throwing

end Dross
