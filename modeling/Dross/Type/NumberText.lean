import Dross.Type.Digits
import Mathlib.Data.List.DropRight

/-!
# Number text

The functions of `number.cpp` on the text a number is stored as: what is
accepted, its canonical form, its order, and the four operations, each digit by
digit as the source has them. The loops that run an index down a string are
recursions on its reverse, or on the index where a string is written in place.
-/

namespace Dross

/-- `NAN_VALUE`, "__invalid__" -/
def nanValue : Text := "__invalid__".toList.map ch

def isExponentMark (c : UInt8) : Bool := c == ch 'e' || c == ch 'E'

def isSign (c : UInt8) : Bool := c == ch '-' || c == ch '+'

/-- The text from `start`, which is past a sign. -/
def dropSign : Text → Text
  | [] => []
  | c :: rest => if isSign c then rest else c :: rest

/-- The loop over a mantissa: none at a second point or at what is no digit,
and otherwise whether there was a point. -/
def scanMantissa : Bool → Text → Option Bool
  | hasDot, [] => some hasDot
  | hasDot, c :: rest =>
    if c == ch '.' then if hasDot then none else scanMantissa true rest
    else if isDigit c then scanMantissa hasDot rest
    else none

def isValidNumber (str : Text) : Bool :=
  let body := dropSign str
  let mantissa := body.takeWhile (fun c => ! isExponentMark c)
  let exponent := body.dropWhile (fun c => ! isExponentMark c)
  if body.isEmpty then false
  else if ! exponent.isEmpty && mantissa.isEmpty then false
  else
    match scanMantissa false mantissa with
    | none => false
    | some hasDot =>
      if hasDot && (mantissa.head? == some (ch '.') || mantissa.getLast? == some (ch '.')) &&
          mantissa.length ≤ 1 then false
      else if exponent.isEmpty then true
      else
        let digits := dropSign (exponent.drop 1)
        ! digits.isEmpty && digits.all isDigit

def maxExpandedDigits : Nat := 4096

/-- Erases up to `find_first_not_of('0')`. -/
def dropZeros (t : Text) : Text := t.dropWhile (fun c => c == ch '0')

/-- Erases after `find_last_not_of('0')`. -/
def dropTrailingZeros (t : Text) : Text := t.rdropWhile (fun c => c == ch '0')

/-- The digits with `integerDigits` of them before the point. -/
def placePoint (digits : Text) (integerDigits : Int) : Text :=
  let length : Int := digits.length
  if integerDigits ≤ 0 then
    [ch '0', ch '.'] ++ List.replicate (-integerDigits).toNat (ch '0') ++ digits
  else if integerDigits ≥ length then
    digits ++ List.replicate (integerDigits - length).toNat (ch '0')
  else digits.take integerDigits.toNat ++ [ch '.'] ++ digits.drop integerDigits.toNat

def expandExponent (str : Text) : Text :=
  let front := str.takeWhile (fun c => ! isExponentMark c)
  let back := str.dropWhile (fun c => ! isExponentMark c)
  if back.isEmpty then str
  else
    let negative := str.head? == some (ch '-')
    let mantissa := dropSign front
    let digits := mantissa.filter (fun c => ! c == ch '.')
    let point := (mantissa.takeWhile (fun c => ! c == ch '.')).length
    let writtenDigits := digits.length
    if digits.all (fun c => c == ch '0') then [ch '0']
    else
      let first := (digits.takeWhile (fun c => c == ch '0')).length
      let digits := dropZeros digits
      let leading : Int := point - first
      let written := back.drop 1
      let exponentNegative := written.head? == some (ch '-')
      let exponent := dropZeros (dropSign written)
      if exponent.length > 9 then nanValue
      else
        let shift : Int := natural exponent
        let integerDigits : Int := leading + if exponentNegative then -shift else shift
        let length : Int := digits.length
        let total : Int :=
          if integerDigits ≤ 0 then 1 - integerDigits + length else max integerDigits length
        if total > (max maxExpandedDigits writtenDigits : Nat) then nanValue
        else
          let result := placePoint digits integerDigits
          if negative then ch '-' :: result else result

/-- An integer part and a fraction, with a point between them if there is one. -/
def joined (integer fraction : Text) : Text :=
  if fraction.isEmpty then integer else integer ++ ch '.' :: fraction

/-- The text before the first point, and after it. -/
def beforePoint (t : Text) : Text := t.takeWhile (fun c => ! c == ch '.')

def afterPoint (t : Text) : Text := (t.dropWhile (fun c => ! c == ch '.')).drop 1

/-- What `canonical_text` makes of a text without an exponent. -/
def canonicalExpanded (expanded : Text) : Text :=
  let negative := expanded.head? == some (ch '-')
  let unsignedPart := dropSign expanded
  let integer := dropZeros (beforePoint unsignedPart)
  let integer := if integer.isEmpty then [ch '0'] else integer
  let fraction := dropTrailingZeros (afterPoint unsignedPart)
  let result := joined integer fraction
  if negative && result != [ch '0'] then ch '-' :: result else result

def canonicalText (str : Text) : Text :=
  if ! isValidNumber str then nanValue
  else
    let expanded := expandExponent str
    if expanded == nanValue then nanValue else canonicalExpanded expanded

/-- `std::string_view::compare`, as the sign of what it returns. -/
def compareText : Text → Text → Int
  | [], [] => 0
  | [], _ :: _ => -1
  | _ :: _, [] => 1
  | c :: s, d :: t => if c < d then -1 else if d < c then 1 else compareText s t

def compareNumbers (a b : Text) : Int :=
  let aNeg := a.head? == some (ch '-')
  let bNeg := b.head? == some (ch '-')
  if aNeg != bNeg then if aNeg then -1 else 1
  else
    let a := if aNeg then a.drop 1 else a
    let b := if aNeg then b.drop 1 else b
    let aInt := beforePoint a
    let bInt := beforePoint b
    let cmp : Int :=
      if aInt.length ≠ bInt.length then if aInt.length < bInt.length then -1 else 1
      else if compareText aInt bInt ≠ 0 then if compareText aInt bInt < 0 then -1 else 1
      else
        let c := compareText (a.dropWhile (fun c => ! c == ch '.'))
          (b.dropWhile (fun c => ! c == ch '.'))
        if c ≠ 0 then if c < 0 then -1 else 1 else 0
    if aNeg then -cmp else cmp

structure NumberParts where
  negative : Bool
  integer : Text
  fractional : Text
  deriving DecidableEq, Repr

/-- `NumberParts(num)` -/
def numberParts (num : Text) : NumberParts :=
  let negative := num.head? == some (ch '-')
  let absNum := if negative then num.drop 1 else num
  ⟨negative, beforePoint absNum, afterPoint absNum⟩

/-- `resize(length, '0')` for a length that is not below the one it has. -/
def padded (t : Text) (length : Nat) : Text := t ++ List.replicate (length - t.length) (ch '0')

/-- Both fractions, from the back, added in front of `result`. -/
def addFractions : Text → Text → Nat → Text → Text × Nat
  | c :: a, d :: b, carry, result =>
    let sum := carry + digit c + digit d
    addFractions a b (sum / 10) (digitChar (sum % 10) :: result)
  | _, _, carry, result => (result, carry)

/-- Both integer parts, from the back: `while (i >= 0 || j >= 0 || carry > 0)`. -/
def addIntegers : Text → Text → Nat → Text → Text
  | c :: a, d :: b, carry, result =>
    let sum := carry + digit c + digit d
    addIntegers a b (sum / 10) (digitChar (sum % 10) :: result)
  | c :: a, [], carry, result =>
    let sum := carry + digit c
    addIntegers a [] (sum / 10) (digitChar (sum % 10) :: result)
  | [], d :: b, carry, result =>
    let sum := carry + digit d
    addIntegers [] b (sum / 10) (digitChar (sum % 10) :: result)
  | [], [], carry, result =>
    if 0 < carry then addIntegers [] [] (carry / 10) (digitChar (carry % 10) :: result)
    else result
termination_by a b carry => (a.length + b.length, carry)

/-- The integer part and what the fraction leaves once its trailing zeros go. -/
def combined (integer fraction : Text) : Text := joined integer (dropTrailingZeros fraction)

def addPositiveNumbers (a b : Text) : Text :=
  let pa := numberParts a
  let pb := numberParts b
  let maxFrac := max pa.fractional.length pb.fractional.length
  let fraction := addFractions (padded pa.fractional maxFrac).reverse
    (padded pb.fractional maxFrac).reverse 0 []
  let integer := addIntegers pa.integer.reverse pb.integer.reverse fraction.2 []
  canonicalText (combined integer fraction.1)

/-- A difference of digits with the borrow it leaves. -/
def borrowed (diff : Int) : Nat × Nat :=
  if diff < 0 then ((diff + 10).toNat, 1) else (diff.toNat, 0)

def subtractFractions : Text → Text → Nat → Text → Text × Nat
  | c :: a, d :: b, borrow, result =>
    let diff := borrowed ((digit c : Int) - digit d - borrow)
    subtractFractions a b diff.2 (digitChar diff.1 :: result)
  | _, _, borrow, result => (result, borrow)

/-- Both integer parts, from the back: `while (i >= 0)`. -/
def subtractIntegers : Text → Text → Nat → Text → Text
  | c :: a, d :: b, borrow, result =>
    let diff := borrowed ((digit c : Int) - borrow - digit d)
    subtractIntegers a b diff.2 (digitChar diff.1 :: result)
  | c :: a, [], borrow, result =>
    let diff := borrowed ((digit c : Int) - borrow)
    subtractIntegers a [] diff.2 (digitChar diff.1 :: result)
  | [], _, _, result => result

def subtractPositiveNumbers (a b : Text) : Text :=
  let pa := numberParts a
  let pb := numberParts b
  let maxFrac := max pa.fractional.length pb.fractional.length
  let fraction := subtractFractions (padded pa.fractional maxFrac).reverse
    (padded pb.fractional maxFrac).reverse 0 []
  let integer := subtractIntegers pa.integer.reverse pb.integer.reverse fraction.2 []
  canonicalText (combined integer fraction.1)

/-- The body of both loops, at `p1 = i + j` and `p2 = i + j + 1`; the digit at
`p1` may pass '9' until its own turn comes. -/
def multiplyDigits (a b : Text) (i j : Nat) (result : Text) : Text :=
  let mul := digit (a.getD i 0) * digit (b.getD j 0)
  let sum := mul + digit (result.getD (i + j + 1) 0)
  let result := result.set (i + j + 1) (digitChar (sum % 10))
  result.set (i + j) (result.getD (i + j) 0 + UInt8.ofNat (sum / 10))

/-- The inner loop, with `j` running down. -/
def multiplyRow (a b : Text) (i : Nat) : Nat → Text → Text
  | 0, result => result
  | j + 1, result => multiplyRow a b i j (multiplyDigits a b i j result)

def multiplyRows (a b : Text) : Nat → Text → Text
  | 0, result => result
  | i + 1, result => multiplyRows a b i (multiplyRow a b i b.length result)

/-- Drops leading zeros, but never the last digit. -/
def trimZeros : Text → Text
  | [] => []
  | [c] => [c]
  | c :: rest => if c == ch '0' then trimZeros rest else c :: rest

/-- Puts the point before the last `places` digits. -/
def insertPoint (result : Text) (places : Nat) : Text :=
  if 0 < places then
    let result :=
      if result.length ≤ places then
        List.replicate (places - result.length + 1) (ch '0') ++ result
      else result
    let decimalPos := result.length - places
    if decimalPos = 0 then [ch '0', ch '.'] ++ result
    else result.take decimalPos ++ [ch '.'] ++ result.drop decimalPos
  else result

def multiplyPositiveNumbers (a b : Text) : Text :=
  let pa := numberParts a
  let pb := numberParts b
  let numA := pa.integer ++ pa.fractional
  let numB := pb.integer ++ pb.fractional
  let totalDecimalPlaces := pa.fractional.length + pb.fractional.length
  if numA = [ch '0'] || numB = [ch '0'] then [ch '0']
  else
    let result := multiplyRows numA numB numA.length
      (List.replicate (numA.length + numB.length) (ch '0'))
    canonicalText (insertPoint (trimZeros result) totalDecimalPlaces)

/-- `std::to_string(count)` -/
def countText (count : Nat) : Text := (Nat.toDigits 10 count).map ch

def divideDigits (divisor : Nat) : Nat → Text → Text
  | _, [] => []
  | carry, c :: rest =>
    let current := carry * 10 + digit c
    digitChar (current / divisor) :: divideDigits divisor (current % divisor) rest

def divideExactly (digits : Text) (divisor : Nat) : Text :=
  trimZeros (divideDigits divisor 0 digits)

/-- `while (compare_numbers(remainder, divisor) >= 0)`, with how often it went
round. What comes in is under ten times the divisor, so ten turns are enough:
none here would be a loop still running. -/
def subtractWhile (divisor : Text) : Nat → Nat → Text → Option (Nat × Text)
  | 0, _, _ => none
  | turns + 1, count, remainder =>
    if compareNumbers remainder divisor ≥ 0 then
      subtractWhile divisor turns (count + 1) (subtractPositiveNumbers remainder divisor)
    else some (count, remainder)

def multipleRemainder (divisor : Text) : Text → Text → Option Text
  | [], remainder => some remainder
  | digit :: rest, remainder =>
    let remainder := if remainder == [ch '0'] then [digit] else remainder ++ [digit]
    match subtractWhile divisor 10 0 remainder with
    | none => none
    | some next => multipleRemainder divisor rest next.2

def isMultipleOf (digits divisor : Text) : Option Bool :=
  (multipleRemainder divisor digits [ch '0']).map (fun remainder => remainder == [ch '0'])

def quotientSignificantDigits : Nat := 34

/-- The loop over the dividend's digits. -/
def longDivision (divisor : Text) : Text → Text → Text → Option (Text × Text)
  | [], quotient, remainder => some (quotient, remainder)
  | digit :: rest, quotient, remainder =>
    match subtractWhile divisor 10 0 (trimZeros (remainder ++ [digit])) with
    | none => none
    | some next => longDivision divisor rest (quotient ++ countText next.1) next.2

/-- Divides by a factor while the last digit says it can, and counts how often. -/
def stripFactor (factor : Nat) (ends : UInt8 → Bool) : Nat → Nat → Text → Option (Text × Nat)
  | 0, _, _ => none
  | turns + 1, count, rest =>
    if ends (rest.getLast?.getD 0) then
      stripFactor factor ends turns (count + 1) (divideExactly rest factor)
    else some (rest, count)

def endsEven (c : UInt8) : Bool := digit c % 2 == 0

def endsFive (c : UInt8) : Bool := c == ch '0' || c == ch '5'

/-- Whether the quotient is to have another digit after the point. -/
def wantsDigit (terminates : Bool) (fractionDigits significantDigits written significant : Nat) :
    Bool :=
  if terminates then decide (written < fractionDigits)
  else decide (significant < significantDigits)

/-- The loop for the digits after the point. -/
def decimalDigits (divisor : Text) (terminates : Bool) (fractionDigits significantDigits : Nat) :
    Nat → Text → Text → Nat → Option (Text × Text)
  | 0, _, _, _ => none
  | turns + 1, decimalPart, remainder, significant =>
    if remainder != [ch '0'] &&
        wantsDigit terminates fractionDigits significantDigits decimalPart.length significant then
      match subtractWhile divisor 10 0 (remainder ++ [ch '0']) with
      | none => none
      | some next => decimalDigits divisor terminates fractionDigits significantDigits turns
          (decimalPart ++ countText next.1) next.2
          (if 0 < significant || next.1 != 0 then significant + 1 else significant)
    else some (decimalPart, remainder)

/-- Whether the quotient is written out to its end, and how many digits that
takes after the point. -/
def termination (dividend divisor quotient remainder : Text) (significantDigits : Nat) :
    Option (Bool × Nat) :=
  if remainder == [ch '0'] || significantDigits = 0 then some (remainder == [ch '0'], 0)
  else do
    let twos ← stripFactor 2 endsEven (natural divisor + 1) 0 divisor
    let fives ← stripFactor 5 endsFive (natural divisor + 1) 0 twos.1
    let fractionDigits := max twos.2 fives.2
    if quotient.length + fractionDigits ≤ maxExpandedDigits then
      let multiple ← isMultipleOf dividend fives.1
      some (multiple, fractionDigits)
    else some (false, fractionDigits)

/-- The digits a quotient that does not end keeps after the point. -/
def keptDigits (quotient decimalPart : Text) (significantDigits : Nat) : Nat :=
  let integerSignificant := if quotient == [ch '0'] then 0 else quotient.length
  let leadingZeros :=
    if quotient == [ch '0'] then (decimalPart.takeWhile (fun c => c == ch '0')).length else 0
  if integerSignificant ≥ significantDigits then 0
  else leadingZeros + significantDigits - integerSignificant

/-- None is a loop that has not ended, which no call comes to. -/
def dividePositiveNumbers (a b : Text) (significantDigits : Nat) : Option Text :=
  if b == [ch '0'] then some nanValue
  else
    let pa := numberParts a
    let pb := numberParts b
    let scale := max pa.fractional.length pb.fractional.length
    let dividend := pa.integer ++ padded pa.fractional scale
    let divisor := trimZeros (pb.integer ++ padded pb.fractional scale)
    if divisor == [ch '0'] then some nanValue
    else do
      let divided ← longDivision divisor dividend [ch '0'] [ch '0']
      let quotient := trimZeros divided.1
      let (terminates, fractionDigits) ←
        termination dividend divisor quotient divided.2 significantDigits
      let significant := if quotient == [ch '0'] then 0 else quotient.length
      let decimals ← decimalDigits divisor terminates fractionDigits significantDigits
        (fractionDigits + significantDigits + divisor.length + 1) [] divided.2 significant
      let decimalPart :=
        if decimals.2 != [ch '0'] then
          decimals.1.take (keptDigits quotient decimals.1 significantDigits)
        else decimals.1
      some (canonicalText (combined quotient decimalPart))

def moduloPositiveNumbers (a b : Text) : Option Text :=
  if b == [ch '0'] then some nanValue
  else do
    let quotient ← dividePositiveNumbers a b 0
    let product := multiplyPositiveNumbers b (beforePoint quotient)
    some (canonicalText (subtractPositiveNumbers a product))

inductive ArithmeticOperation where
  | plus
  | minus
  | times
  | over
  | modulo
  deriving DecidableEq, Repr

/-- A text with its sign in front, when it has one. -/
def signed (negative : Bool) (result : Text) : Text :=
  if negative then ch '-' :: result else result

def performArithmetic (na nb : Text) (operation : ArithmeticOperation) : Option Text :=
  if na == nanValue || nb == nanValue then some nanValue
  else
    let aNeg := na.head? == some (ch '-')
    let bNeg := nb.head? == some (ch '-')
    let aAbs := if aNeg then na.drop 1 else na
    let bAbs := if bNeg then nb.drop 1 else nb
    match operation with
    | .plus =>
      if aNeg == bNeg then some (signed aNeg (addPositiveNumbers aAbs bAbs))
      else
        let cmp := compareNumbers aAbs bAbs
        if cmp = 0 then some [ch '0']
        else if cmp > 0 then some (signed aNeg (subtractPositiveNumbers aAbs bAbs))
        else some (signed bNeg (subtractPositiveNumbers bAbs aAbs))
    | .minus =>
      if aNeg != bNeg then some (signed aNeg (addPositiveNumbers aAbs bAbs))
      else
        let cmp := compareNumbers aAbs bAbs
        if cmp = 0 then some [ch '0']
        else if cmp > 0 then some (signed aNeg (subtractPositiveNumbers aAbs bAbs))
        else some (signed (! aNeg) (subtractPositiveNumbers bAbs aAbs))
    | .times =>
      let result := multiplyPositiveNumbers aAbs bAbs
      if result == [ch '0'] then some [ch '0'] else some (signed (aNeg != bNeg) result)
    | .over =>
      if nb == [ch '0'] then some nanValue
      else (dividePositiveNumbers aAbs bAbs quotientSignificantDigits).map (fun result =>
        if result == nanValue then nanValue else signed (aNeg != bNeg) result)
    | .modulo =>
      if nb == [ch '0'] || na.contains (ch '.') || nb.contains (ch '.') then some nanValue
      else (moduloPositiveNumbers aAbs bAbs).map (fun result =>
        if result == nanValue then nanValue else signed aNeg result)

end Dross
