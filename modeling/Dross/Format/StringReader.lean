import Dross.Format.Cursor

/-!
# Reading strings and keys

Three readers of strings: between double quotes with escapes, between single quotes
without, and between three of either over several lines.
-/

namespace Dross

/-- `std::stoul(text, nullptr, 16)`, of hexadecimal digits. -/
def hexadecimal (text : Text) : Nat :=
  Numeral.value 16 (text.map (fun c => (digitValue c 16).getD 0))

namespace Cursor

/-- Whether the bytes after the current one start with this many hexadecimal digits. -/
def xdigitsAhead (c : Cursor) (digits : Nat) : Bool :=
  (List.range digits).all (fun k => isAsciiXdigit (c.peekChar (k + 1)))

/-- Reads the escape whose letter is the current character, and stays at its last one. -/
def appendEscape (c : Cursor) (result : Text) : Reading Text :=
  let letter := c.currentChar
  if letter = ch '"' then .ok (result ++ [ch '"'], c)
  else if letter = ch '\\' then .ok (result ++ [ch '\\'], c)
  else if letter = ch 'n' then .ok (result ++ [ch '\n'], c)
  else if letter = ch 't' then .ok (result ++ [ch '\t'], c)
  else if letter = ch 'r' then .ok (result ++ [ch '\r'], c)
  else if letter = ch 'b' then .ok (result ++ [0x08], c)
  else if letter = ch 'f' then .ok (result ++ [0x0C], c)
  else if letter = ch 'u' || letter = ch 'U' then
    let digits := if letter = ch 'u' then 4 else 8
    if ! c.xdigitsAhead digits then c.fail "Invalid unicode escape"
    else
      let codePoint := hexadecimal ((c.rest.drop 1).take digits)
      if (0xD800 ≤ codePoint && codePoint ≤ 0xDFFF) || codePoint > 0x10FFFF then
        c.fail "Invalid unicode escape"
      else .ok (result ++ encodeUtf8 codePoint, c.skip digits)
  else c.fail "Invalid escape sequence"

/-- The loop of `parse_basic_string`, and what comes after it. -/
def basicString (kind : String) : Nat → Cursor → Text → Reading Text
  | 0, _, _ => .error .outOfTurns
  | turns + 1, c, result =>
    if ! c.atEnd && c.currentChar != ch '"' then
      if c.currentChar = ch '\\' then
        let c := c.advance
        if c.atEnd then c.fail ("Unterminated " ++ kind)
        else
          match c.appendEscape result with
          | .error e => .error e
          | .ok (result, c) => basicString kind turns c.advance result
      else if isForbiddenControl c.currentChar then c.fail ("Control character in " ++ kind)
      else basicString kind turns c.advance (result ++ [c.currentChar])
    else if c.currentChar != ch '"' then c.fail ("Unterminated " ++ kind)
    else .ok (result, c.advance)

def parseBasicString (c : Cursor) (kind : String) : Reading Text :=
  if c.currentChar != ch '"' then c.fail "Expected '\"'"
  else basicString kind (c.advance.rest.length + 1) c.advance []

/-- The loop of `parse_literal_string`, and what comes after it. -/
def literalString (kind : String) : Nat → Cursor → Text → Reading Text
  | 0, _, _ => .error .outOfTurns
  | turns + 1, c, result =>
    if ! c.atEnd && c.currentChar != ch '\'' then
      if isForbiddenControl c.currentChar then c.fail ("Control character in " ++ kind)
      else literalString kind turns c.advance (result ++ [c.currentChar])
    else if c.currentChar != ch '\'' then c.fail ("Unterminated " ++ kind)
    else .ok (result, c.advance)

def parseLiteralString (c : Cursor) (kind : String) : Reading Text :=
  literalString kind (c.advance.rest.length + 1) c.advance []

def atLineEnd (c : Cursor) (offset : Nat) : Bool :=
  c.peekChar offset == ch '\n' || (c.peekChar offset == ch '\r' && c.peekChar (offset + 1) == ch '\n')

def skipLineEnd (c : Cursor) : Cursor :=
  (if c.currentChar == ch '\r' then c.advance else c).advance

/-- How many spaces and tabs come after the current character. -/
def blanksAhead (c : Cursor) : Nat :=
  ((c.rest.drop 1).takeWhile (fun byte => byte == ch ' ' || byte == ch '\t')).length

/-- The whitespace and line ends after a backslash at the end of a line. A line end takes two
advances where it starts with a CR, which then is whitespace before its LF. -/
def skipBlankLines (c : Cursor) : Cursor :=
  c.advanceWhile (fun c => c.currentChar == ch ' ' || c.currentChar == ch '\t' || c.atLineEnd 0)

/-- Up to two quotes that come before the closing three. -/
def extraQuotes (c : Cursor) (quote : UInt8) : Nat :=
  if c.peekChar 3 == quote then if c.peekChar 4 == quote then 2 else 1 else 0

/-- The loop of `parse_multi_line_string`, and what comes after it. -/
def multiLineString (quote : UInt8) (kind : String) : Nat → Cursor → Text → Reading Text
  | 0, _, _ => .error .outOfTurns
  | turns + 1, c, result =>
    if c.atEnd then c.fail ("Unterminated " ++ kind)
    else
      let byte := c.currentChar
      if byte == quote && c.peekChar 1 == quote && c.peekChar 2 == quote then
        let extra := c.extraQuotes quote
        .ok (result ++ List.replicate extra quote, c.skip (3 + extra))
      else if quote == ch '"' && byte == ch '\\' then
        let k := c.blanksAhead + 1
        if c.atLineEnd k || c.rest.length ≤ k then
          multiLineString quote kind turns c.advance.skipBlankLines result
        else
          match c.advance.appendEscape result with
          | .error e => .error e
          | .ok (result, c) => multiLineString quote kind turns c.advance result
      else if c.atLineEnd 0 then
        let result := if byte == ch '\r' then result ++ [ch '\r'] else result
        multiLineString quote kind turns c.skipLineEnd (result ++ [ch '\n'])
      else if isForbiddenControl byte then c.fail ("Control character in " ++ kind)
      else multiLineString quote kind turns c.advance (result ++ [byte])

def parseMultiLineString (c : Cursor) (quote : UInt8) (kind : String) : Reading Text :=
  let c := c.skip 3
  let c := if c.atLineEnd 0 then c.skipLineEnd else c
  multiLineString quote kind (c.rest.length + 1) c []

def parseBareKey (c : Cursor) : Text × Cursor :=
  let key := c.rest.takeWhile isBareKeyChar
  (key, c.skip key.length)

def parseQuotedKey (c : Cursor) : Reading Text := c.parseBasicString "quoted key"

def parseKey (c : Cursor) : Reading Text :=
  if c.currentChar = ch '"' then c.parseQuotedKey
  else if c.currentChar = ch '\'' then c.parseLiteralString "literal key"
  else if isBareKeyChar c.currentChar then .ok c.parseBareKey
  else c.fail "Invalid key format"

end Cursor

end Dross
