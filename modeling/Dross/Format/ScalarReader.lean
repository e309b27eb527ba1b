import Dross.Format.Cursor
import Dross.Type.TimestampText
import Dross.Type.Value

/-!
# Reading booleans, datetimes and numbers

These check the form TOML asks for while they gather the text, and leave the value to
the type.
-/

namespace Dross

theorem digits_integral {t : Text} (h : AllDigits t) : isWrittenAsFloatingPoint t = false := by
  rw [isWrittenAsFloatingPoint, List.any_eq_false]
  intro c mem mark
  have digit := h c mem
  simp only [Bool.or_eq_true, beq_iff_eq] at mark
  rcases mark with (rfl | rfl) | rfl
  · exact absurd digit (by decide)
  · exact absurd digit (by decide)
  · exact absurd digit (by decide)

/-- `number(T n)` for an unsigned integer. -/
def Number.ofUnsigned (n : Nat) : Number := Number.ofTextAs (countText n) false (fun point =>
  (digits_integral (countText_digits n).1).symm.trans (canonicalText_point point))

namespace Cursor

/-- The floats inf and nan, with or without a sign, ending the word. -/
def atInfOrNan (c : Cursor) : Bool :=
  let start := if c.currentChar = ch '+' || c.currentChar = ch '-' then 1 else 0
  let isWord (word : Text) : Bool :=
    (c.rest.drop start).take 3 == word && ! isBareKeyChar (c.peekChar (start + 3))
  isWord [ch 'i', ch 'n', ch 'f'] || isWord [ch 'n', ch 'a', ch 'n']

def parseBoolean (c : Cursor) : Reading Value :=
  if c.rest.take 4 = [ch 't', ch 'r', ch 'u', ch 'e'] then
    .ok (.boolean true, { c with rest := c.rest.drop 4, column := c.column + 4 })
  else if c.rest.take 5 = [ch 'f', ch 'a', ch 'l', ch 's', ch 'e'] then
    .ok (.boolean false, { c with rest := c.rest.drop 5, column := c.column + 5 })
  else c.fail "Invalid boolean value"

def digitsAhead (c : Cursor) (offset count : Nat) : Bool :=
  (List.range count).all (fun k => isDigit (c.peekChar (offset + k)))

def atDate (c : Cursor) : Bool := c.digitsAhead 0 4 && c.peekChar 4 == ch '-'

def atTime (c : Cursor) : Bool := c.digitsAhead 0 2 && c.peekChar 2 == ch ':'

/-- `take_digits` in `parse_datetime`, with the text it adds to. -/
def takeDigits (count : Nat) (s : Cursor × Text) : Option (Cursor × Text) :=
  if s.1.digitsAhead 0 count then some (s.1.skip count, s.2 ++ s.1.rest.take count) else none

/-- `take` in `parse_datetime` -/
def takeChar (byte : UInt8) (s : Cursor × Text) : Option (Cursor × Text) :=
  if s.1.currentChar = byte then some (s.1.advance, s.2 ++ [byte]) else none

def takeDate (s : Cursor × Text) : Option (Cursor × Text) := do
  let s ← takeDigits 4 s
  let s ← takeChar (ch '-') s
  let s ← takeDigits 2 s
  let s ← takeChar (ch '-') s
  takeDigits 2 s

def takeTime (s : Cursor × Text) : Option (Cursor × Text) := do
  let s ← takeDigits 2 s
  let s ← takeChar (ch ':') s
  let s ← takeDigits 2 s
  let s ← takeChar (ch ':') s
  takeDigits 2 s

/-- The fraction of a second, if a dot starts one. -/
def takeFraction (s : Cursor × Text) : Cursor × Text :=
  match takeChar (ch '.') s with
  | none => s
  | some s =>
    let digits := s.1.rest.takeWhile isDigit
    (s.1.skip digits.length, s.2 ++ digits)

/-- An offset of hours and minutes, whose sign is the current character. -/
def takeOffset (s : Cursor × Text) : Option (Cursor × Text) := do
  let s ← takeChar s.1.currentChar s
  let s ← takeDigits 2 s
  let s ← takeChar (ch ':') s
  takeDigits 2 s

/-- What of `parse_datetime` comes after the text is gathered. -/
def finishDatetime (start : Position) (s : Cursor × Text) : Reading Value :=
  match Timestamp.fromString s.2 with
  | none => .error (.failed (createError "Invalid datetime" start))
  | some t => .ok (.timestamp t, s.1)

def parseDatetime (c : Cursor) : Reading Value :=
  let start := c.position
  let invalid : Reading Value := .error (.failed (createError "Invalid datetime" start))
  let withoutOffset : Reading Value :=
    .error (.failed (createError "timestamp cannot hold a datetime without an offset" start))
  if c.atTime then withoutOffset
  else
    match takeDate (c, []) with
    | none => invalid
    | some (c, text) =>
      if c.currentChar == ch 'T' || c.currentChar == ch 't' ||
          (c.currentChar == ch ' ' && c.digitsAhead 1 2 && c.peekChar 3 == ch ':') then
        match takeTime (c.advance, text ++ [ch 'T']) with
        | none => invalid
        | some s =>
          let (c, text) := takeFraction s
          if c.currentChar == ch 'Z' || c.currentChar == ch 'z' then
            finishDatetime start (c.advance, text ++ [ch 'Z'])
          else if c.currentChar == ch '+' || c.currentChar == ch '-' then
            match takeOffset (c, text) with
            | none => invalid
            | some s => finishDatetime start s
          else withoutOffset
      else withoutOffset

def atIntegerPrefix (c : Cursor) : Bool :=
  c.currentChar == ch '0' &&
    (c.peekChar 1 == ch 'x' || c.peekChar 1 == ch 'o' || c.peekChar 1 == ch 'b')

/-- Reads the digits of a base onto text, and counts them. -/
def readDigits (base : Nat) : Nat → Cursor → Text → Nat → Reading (Text × Nat)
  | 0, _, _, _ => .error .outOfTurns
  | turns + 1, c, text, count =>
    if c.currentChar = ch '_' && (count = 0 || (digitValue (c.peekChar 1) base).isNone) then
      c.fail "An underscore must be between digits"
    else
      let c := if c.currentChar = ch '_' then c.advance else c
      if (digitValue c.currentChar base).isNone then .ok ((text, count), c)
      else readDigits base turns c.advance (text ++ [c.currentChar]) (count + 1)

/-- The digits from here. -/
def digitsOf (c : Cursor) (base : Nat) (text : Text) : Reading (Text × Nat) :=
  readDigits base (c.rest.length + 1) c text 0

end Cursor

/-- The value of a chunk of digits, `part` in `parse_prefixed_integer`. -/
def chunkValue (base bits : Nat) (digits : Text) : UInt64 :=
  digits.foldl (fun part c =>
    part <<< UInt64.ofNat bits ||| UInt64.ofNat ((digitValue c base).getD 0)) 0

/-- The loop over the chunks of digits. A sum or a product that does not end is a loop out of
turns. -/
def sumChunks (base bits chunk : Nat) : Nat → Text → Number → Except Stop Number
  | 0, _, _ => .error .outOfTurns
  | turns + 1, digits, result =>
    if digits.isEmpty then .ok result
    else
      let length := min chunk digits.length
      let shifted := result.calculate (Number.ofUnsigned (2 ^ (bits * length))) .times
      let summed := shifted.bind (fun n => n.calculate
        (Number.ofUnsigned (chunkValue base bits (digits.take length)).toNat) .plus)
      match summed with
      | none => .error .outOfTurns
      | some result => sumChunks base bits chunk turns (digits.drop length) result

namespace Cursor

def parsePrefixedInteger (c : Cursor) : Reading Value :=
  let letter := c.peekChar 1
  let base := if letter = ch 'x' then 16 else if letter = ch 'o' then 8 else 2
  match (c.skip 2).digitsOf base [] with
  | .error e => .error e
  | .ok ((digits, count), c) =>
    if count = 0 then
      c.fail ("Expected a digit after '0" ++ (Char.ofNat letter.toNat).toString ++ "'")
    else
      let bits := if base = 16 then 4 else if base = 8 then 3 else 1
      match sumChunks base bits (63 / bits) (digits.length + 1) digits (Number.ofUnsigned 0) with
      | .error e => .error e
      | .ok result => .ok (.number result, c)

/-- The sign in front of a number or an exponent. -/
def takeSign (c : Cursor) (text : Text) : Cursor × Text :=
  if c.currentChar = ch '+' || c.currentChar = ch '-' then (c.advance, text ++ [c.currentChar])
  else (c, text)

/-- A decimal point and the digits after it, if there is one. -/
def readFraction (c : Cursor) (text : Text) : Reading Text :=
  if c.currentChar = ch '.' then
    match c.advance.digitsOf 10 (text ++ [ch '.']) with
    | .error e => .error e
    | .ok ((text, count), c) =>
      if count = 0 then c.fail "Expected a digit after '.'" else .ok (text, c)
  else .ok (text, c)

/-- An exponent, if there is one. -/
def readExponent (c : Cursor) (text : Text) : Reading Text :=
  if c.currentChar = ch 'e' || c.currentChar = ch 'E' then
    let (signed, text) := c.advance.takeSign (text ++ [c.currentChar])
    match signed.digitsOf 10 text with
    | .error e => .error e
    | .ok ((text, count), c) =>
      if count = 0 then c.fail "Expected a digit in the exponent" else .ok (text, c)
  else .ok (text, c)

def parseNumber (c : Cursor) : Reading Value :=
  if c.atIntegerPrefix then c.parsePrefixedInteger
  else
    let (unsigned, sign) := c.takeSign []
    if ! sign.isEmpty && unsigned.atIntegerPrefix then
      unsigned.fail "An integer with a prefix has no sign"
    else
      let leadingZero := unsigned.currentChar == ch '0'
      match unsigned.digitsOf 10 sign with
      | .error e => .error e
      | .ok ((text, count), c) =>
        if count = 0 then c.fail "Invalid number format"
        else if leadingZero && count > 1 then c.fail "Leading zero in a number"
        else
          match c.readFraction text with
          | .error e => .error e
          | .ok (text, c) =>
            match c.readExponent text with
            | .error e => .error e
            | .ok (text, c) =>
              let n := Number.ofText text
              if n.isNan then c.fail "Invalid number format" else .ok (.number n, c)

end Cursor

end Dross
