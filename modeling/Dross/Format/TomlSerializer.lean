import Dross.Format.Cursor
import Dross.Type.NumberOrder
import Dross.Type.Value

/-!
# The TOML serializer

The pairs of a table come first, then each table or array of tables under headers of its
own. Whatever cannot be written ends the run with an error and no output.
-/

namespace Dross

namespace Number

def int64Max : Number := ofText ("9223372036854775807".toList.map ch)

def int64Min : Number := ofText ("-9223372036854775808".toList.map ch)

/-- An integral number that is no TOML integer. -/
def outOfInt64 (n : Number) : Bool := n.compare int64Max > 0 || n.compare int64Min < 0

end Number

namespace Toml

/-- What is thrown ends `serialize` with this error. -/
def unsupported (what : String) : Error := ⟨.operationNotSupported, what⟩

def hexDigit (n : Nat) : UInt8 := ("0123456789ABCDEF".toList.map ch).getD n 0

/-- What `escape_string` writes for a byte. -/
def escapeByte (c : UInt8) : Text :=
  if c = ch '"' then [ch '\\', ch '"']
  else if c = ch '\\' then [ch '\\', ch '\\']
  else if c = ch '\n' then [ch '\\', ch 'n']
  else if c = ch '\t' then [ch '\\', ch 't']
  else if c = ch '\r' then [ch '\\', ch 'r']
  else if c = 0x08 then [ch '\\', ch 'b']
  else if c = 0x0C then [ch '\\', ch 'f']
  else if isForbiddenControl c then
    [ch '\\', ch 'u', ch '0', ch '0', hexDigit (c.toNat / 16), hexDigit (c.toNat % 16)]
  else [c]

def escapeString (str : Text) : Text := str.flatMap escapeByte

def quoted (str : Text) : Text := ch '"' :: (escapeString str ++ [ch '"'])

def escapeKey (key : Text) : Text :=
  if key.isEmpty || key.any (fun c => ! isBareKeyChar c) then quoted key else key

def joinPath : List Text → Text
  | [] => []
  | [key] => escapeKey key
  | key :: rest => escapeKey key ++ ch '.' :: joinPath rest

/-- `"\n[" + join_path(path) + "]\n"`, with one bracket or two. -/
def header (path : List Text) (array : Bool) : Text :=
  let brackets := if array then 2 else 1
  ch '\n' :: (List.replicate brackets (ch '[') ++ joinPath path ++
    List.replicate brackets (ch ']') ++ [ch '\n'])

def isDictionary : Value → Bool
  | .dictionary _ => true
  | _ => false

def isArrayOfTables : Value → Bool
  | .array elements => ! elements.isEmpty && elements.all isDictionary
  | _ => false

/-- A value written under a header rather than as a key/value pair. -/
def isWrittenAsTable (val : Value) : Bool := isDictionary val || isArrayOfTables val

def numberText (n : Number) : Except Error Text :=
  if n.isNan then .error (unsupported "NaN cannot be written as a TOML value")
  else if n.isInteger && (n.isFloatingPoint || n.outOfInt64) then .ok (n.number ++ [ch '.', ch '0'])
  else .ok n.number

mutual

def serializeValue : Value → Except Error Text
  | .string s => .ok (quoted s)
  | .number n => numberText n
  | .boolean b => .ok ((if b then "true" else "false").toList.map ch)
  | .timestamp t => .ok t.formatIso8601
  | .array elements =>
    (serializeElements true elements).map (fun text => ch '[' :: (text ++ [ch ']']))
  | .dictionary d =>
    (serializeProperties true d).map (fun text => ch '{' :: (text ++ [ch '}']))
  | .null => .error (unsupported "Unsupported value type for TOML serialization")
  | .data _ => .error (unsupported "Unsupported value type for TOML serialization")

/-- The loop of `serialize_array`. -/
def serializeElements : Bool → List Value → Except Error Text
  | _, [] => .ok []
  | first, val :: rest =>
    match serializeValue val with
    | .error e => .error e
    | .ok text =>
      (serializeElements false rest).map (fun more =>
        (if first then [] else [ch ',', ch ' ']) ++ text ++ more)

/-- The loop of `serialize_inline_table`. -/
def serializeProperties : Bool → Dictionary → Except Error Text
  | _, [] => .ok []
  | first, (key, val) :: rest =>
    match serializeValue val with
    | .error e => .error e
    | .ok text =>
      (serializeProperties false rest).map (fun more =>
        (if first then [] else [ch ',', ch ' ']) ++ escapeKey key ++ [ch ' ', ch '=', ch ' '] ++
          text ++ more)

end

def serializeKeyValue (key : Text) (val : Value) : Except Error Text :=
  (serializeValue val).map (fun text =>
    escapeKey key ++ [ch ' ', ch '=', ch ' '] ++ text ++ [ch '\n'])

/-- The first loop of `serialize_dictionary`. -/
def serializePairs : Dictionary → Except Error Text
  | [] => .ok []
  | (key, val) :: rest =>
    if isWrittenAsTable val then serializePairs rest
    else
      match serializeKeyValue key val with
      | .error e => .error e
      | .ok text => (serializePairs rest).map (text ++ ·)

mutual

/-- The second loop of `serialize_dictionary`. -/
def serializeTables (path : List Text) : Dictionary → Except Error Text
  | [] => .ok []
  | (key, .dictionary table) :: rest =>
    match serializePairs table with
    | .error e => .error e
    | .ok pairs =>
      match serializeTables (path ++ [key]) table with
      | .error e => .error e
      | .ok tables =>
        (serializeTables path rest).map (header (path ++ [key]) false ++ pairs ++ tables ++ ·)
  | (key, .array elements) :: rest =>
    if isArrayOfTables (.array elements) then
      match serializeElementTables (path ++ [key]) elements with
      | .error e => .error e
      | .ok text => (serializeTables path rest).map (text ++ ·)
    else serializeTables path rest
  | _ :: rest => serializeTables path rest

/-- The loop over an array of tables. -/
def serializeElementTables (path : List Text) : List Value → Except Error Text
  | [] => .ok []
  | .dictionary table :: rest =>
    match serializePairs table with
    | .error e => .error e
    | .ok pairs =>
      match serializeTables path table with
      | .error e => .error e
      | .ok tables =>
        (serializeElementTables path rest).map (header path true ++ pairs ++ tables ++ ·)
  | _ :: rest => serializeElementTables path rest

end

def serializeDictionary (d : Dictionary) (path : List Text) : Except Error Text :=
  match serializePairs d with
  | .error e => .error e
  | .ok pairs => (serializeTables path d).map (pairs ++ ·)

def serialize (input : Dictionary) : Except Error Text :=
  match serializeDictionary input [] with
  | .error e => .error e
  | .ok output =>
    if ! isValidUtf8 output then .error (unsupported "A string or key is not valid UTF-8")
    else .ok output

end Toml

end Dross
