import Dross.Format.ScalarReader
import Dross.Format.StringReader

/-!
# The TOML parser

Values by recursive descent, and a document statement by statement into the tree of
tables. Every call takes one of the turns it was given, so a run that has none left is
told apart from a failure.
-/

namespace Dross

namespace Cursor

/-- The parts of a header's name, and the bracket after them. -/
def headerKeys : Nat → Cursor → Reading KeyPath
  | 0, _ => .error .outOfTurns
  | turns + 1, c =>
    match c.skipWhitespace.parseKey with
    | .error e => .error e
    | .ok (key, c) =>
      let c := c.skipWhitespace
      if c.currentChar = ch '.' then
        match headerKeys turns c.advance with
        | .error e => .error e
        | .ok (more, c) => .ok (⟨key, more.keys⟩, c)
      else if c.currentChar = ch ']' then .ok (⟨key, []⟩, c.advance)
      else c.fail "Expected '.' or ']'"

def parseTableHeader (c : Cursor) : Reading (KeyPath × Bool) :=
  if c.currentChar != ch '[' then c.fail "Expected '['"
  else
    let c := c.advance
    let array := c.currentChar == ch '['
    let c := if array then c.advance else c
    match headerKeys (c.rest.length + 1) c with
    | .error e => .error e
    | .ok (keyPath, c) =>
      if array then
        if c.currentChar != ch ']' then c.fail "Expected ']]'" else .ok ((keyPath, array), c.advance)
      else .ok ((keyPath, array), c)

/-- The parts of a dotted key, up to what comes after it. -/
def pairKeys : Nat → Cursor → Reading KeyPath
  | 0, _ => .error .outOfTurns
  | turns + 1, c =>
    match c.parseKey with
    | .error e => .error e
    | .ok (key, c) =>
      let c := c.skipWhitespace
      if c.currentChar != ch '.' then .ok (⟨key, []⟩, c)
      else
        match pairKeys turns c.advance.skipWhitespace with
        | .error e => .error e
        | .ok (more, c) => .ok (⟨key, more.keys⟩, c)

/-- `parse_key_value` up to its value. -/
def parseKeyPath (c : Cursor) : Reading KeyPath :=
  match pairKeys (c.rest.length + 1) c with
  | .error e => .error e
  | .ok (keyPath, c) =>
    if c.currentChar != ch '=' then c.fail "Expected '='"
    else .ok (keyPath, c.advance.skipWhitespace)

/-- A string of any of the four forms. -/
def parseString (c : Cursor) : Reading Text :=
  let byte := c.currentChar
  if c.peekChar 1 == byte && c.peekChar 2 == byte then
    c.parseMultiLineString byte
      (if byte = ch '"' then "multi-line string" else "multi-line literal string")
  else if byte = ch '"' then c.parseBasicString "string"
  else c.parseLiteralString "literal string"

mutual

def parseValue : Nat → Cursor → Reading Value
  | 0, _ => .error .outOfTurns
  | turns + 1, c =>
    let c := c.skipWhitespace
    let byte := c.currentChar
    if c.atInfOrNan then c.fail "number has no infinity and keeps nan for errors"
    else if byte = ch '"' || byte = ch '\'' then
      c.parseString.map (fun read => (.string read.1, read.2))
    else if byte = ch '[' then parseArray turns c
    else if byte = ch '{' then parseInlineTable turns c
    else if byte = ch 't' || byte = ch 'f' then c.parseBoolean
    else if c.atDate || c.atTime then c.parseDatetime
    else if isDigit byte || byte = ch '-' || byte = ch '+' then c.parseNumber
    else c.fail "Invalid value format"

def parseArray : Nat → Cursor → Reading Value
  | 0, _ => .error .outOfTurns
  | turns + 1, c =>
    if c.currentChar != ch '[' then c.fail "Expected '['"
    else
      let c := c.advance.skipWhitespaceAndComments
      if c.currentChar = ch ']' then .ok (.array [], c.advance)
      else (arrayElements turns c []).map (fun read => (.array read.1, read.2))

/-- The loop of `parse_array`. -/
def arrayElements : Nat → Cursor → List Value → Reading (List Value)
  | 0, _, _ => .error .outOfTurns
  | turns + 1, c, result =>
    match parseValue turns c with
    | .error e => .error e
    | .ok (val, c) =>
      let result := result ++ [val]
      let c := c.skipWhitespaceAndComments
      if c.currentChar = ch ',' then
        let c := c.advance.skipWhitespaceAndComments
        if c.currentChar = ch ']' then .ok (result, c.advance)
        else arrayElements turns c result
      else if c.currentChar = ch ']' then .ok (result, c.advance)
      else c.fail "Expected ',' or ']'"

def parseInlineTable : Nat → Cursor → Reading Value
  | 0, _ => .error .outOfTurns
  | turns + 1, c =>
    if c.currentChar != ch '{' then c.fail "Expected '\x7b'"
    else
      let c := c.advance.skipWhitespace
      if c.currentChar = ch '}' then .ok (.dictionary [], c.advance)
      else
        (inlinePairs turns c TableNode.fresh).map (fun read =>
          (.dictionary read.1.mergeTables, read.2))

/-- The loop of `parse_inline_table`. -/
def inlinePairs : Nat → Cursor → TableNode → Reading TableNode
  | 0, _, _ => .error .outOfTurns
  | turns + 1, c, result =>
    let pairStart := c.position
    match parseKeyValue turns c with
    | .error e => .error e
    | .ok ((keyPath, val), c) =>
      match result.addPair keyPath val pairStart with
      | (_, .error e) => .error (.failed e)
      | (result, .ok ()) =>
        let c := c.skipWhitespace
        if c.currentChar = ch '\n' || c.currentChar = ch '#' then
          c.fail "An inline table must stay on one line"
        else if c.currentChar = ch ',' then inlinePairs turns c.advance.skipWhitespace result
        else if c.currentChar = ch '}' then .ok (result, c.advance)
        else c.fail "Expected ',' or '\x7d'"

def parseKeyValue : Nat → Cursor → Reading (KeyPath × Value)
  | 0, _ => .error .outOfTurns
  | turns + 1, c =>
    match c.parseKeyPath with
    | .error e => .error e
    | .ok (keyPath, c) => (parseValue turns c).map (fun read => ((keyPath, read.1), read.2))

end

/-- Turns enough for what is left: no call is made that takes no byte but three at most. -/
def turns (c : Cursor) : Nat := 4 * c.rest.length + 4

/-- A statement and the end of its line, with where it starts. -/
def parseStatement (c : Cursor) : Reading (Statement × Position) :=
  let start := c.position
  if c.currentChar = ch '[' then
    match c.parseTableHeader with
    | .error e => .error e
    | .ok ((keyPath, array), c) =>
      c.expectLineEnd.map (fun read => ((.header keyPath array, start), read.2))
  else
    match parseKeyValue c.turns c with
    | .error e => .error e
    | .ok ((keyPath, val), c) =>
      c.expectLineEnd.map (fun read => ((.pair keyPath val, start), read.2))

/-- The loop of `parse_document`. -/
def parseDocument : Nat → Cursor → Document → Reading Document
  | 0, _, _ => .error .outOfTurns
  | turns + 1, c, d =>
    let c := c.skipWhitespaceAndComments
    if c.atEnd then .ok (d, c)
    else
      match c.parseStatement with
      | .error e => .error e
      | .ok ((s, start), c) =>
        match d.define s start with
        | (_, .error e) => .error (.failed e)
        | (d, .ok ()) => parseDocument turns c d

/-- `parser::parse` -/
def parse (c : Cursor) : Except Stop Dictionary :=
  match parseDocument (c.rest.length + 1) c Document.start with
  | .error e => .error e
  | .ok (d, c) =>
    let c := c.skipWhitespaceAndComments
    if ! c.atEnd then c.fail "Unexpected content after document end"
    else .ok d.root.mergeTables

end Cursor

namespace Toml

def deserialize (input : Text) : Except Stop Dictionary :=
  if input.isEmpty then .ok []
  else if ! isValidUtf8 input then .error (.failed ⟨.invalidArgument, "Input is not valid UTF-8"⟩)
  else (Cursor.start input).parse

end Toml

end Dross
