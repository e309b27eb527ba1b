import Dross.Format.TableTree
import Dross.Format.Utf8

/-!
# Where the parser is

The state of the parser is what it has left to read and the line and column of that.
Its loops carry how many turns they may take at most: one that has used them up is
told apart from one that fails.
-/

namespace Dross

def isForbiddenControl (c : UInt8) : Bool := (c < 0x20 && c != ch '\t') || c == 0x7F

def isAsciiAlpha (c : UInt8) : Bool := (ch 'a' ≤ c && c ≤ ch 'z') || (ch 'A' ≤ c && c ≤ ch 'Z')

def isAsciiAlnum (c : UInt8) : Bool := isAsciiAlpha c || isDigit c

def isAsciiXdigit (c : UInt8) : Bool :=
  isDigit c || (ch 'a' ≤ c && c ≤ ch 'f') || (ch 'A' ≤ c && c ≤ ch 'F')

def digitValue (c : UInt8) (base : Nat) : Option Nat :=
  let digit :=
    if isDigit c then some (c.toNat - (ch '0').toNat)
    else if ch 'a' ≤ c && c ≤ ch 'f' then some (c.toNat - (ch 'a').toNat + 10)
    else if ch 'A' ≤ c && c ≤ ch 'F' then some (c.toNat - (ch 'A').toNat + 10)
    else none
  digit.filter (fun value => value < base)

def isBareKeyChar (c : UInt8) : Bool := isAsciiAlnum c || c == ch '_' || c == ch '-'

/-- A fact about bytes is a check of 256 cases. -/
theorem everyByte {P : UInt8 → Prop} (all : ∀ n : Fin 256, P (UInt8.ofNat n.val)) (c : UInt8) :
    P c := by
  have this := all ⟨c.toNat, c.toNat_lt⟩
  rwa [UInt8.ofNat_toNat] at this

/-- Why reading stops: with an error, or for want of turns. -/
inductive Stop where
  | failed (e : Error)
  | outOfTurns
  deriving DecidableEq, Repr

structure Cursor where
  rest : Text
  line : Nat
  column : Nat
  deriving DecidableEq, Repr

/-- What a part of the parser returns, and where it leaves off. -/
abbrev Reading (α : Type) := Except Stop (α × Cursor)

namespace Cursor

/-- Before the first byte of an input. -/
def start (input : Text) : Cursor := ⟨input, 1, 1⟩

def atEnd (c : Cursor) : Bool := c.rest.isEmpty

def position (c : Cursor) : Position := ⟨c.line, c.column⟩

def fail {α : Type} (c : Cursor) (message : String) : Except Stop α :=
  .error (.failed (createError message c.position))

/-- A byte of value zero stands for the end of the input. -/
def currentChar (c : Cursor) : UInt8 := c.rest.headD 0

def peekChar (c : Cursor) (offset : Nat) : UInt8 := c.rest.getD offset 0

def advance (c : Cursor) : Cursor :=
  match c.rest with
  | [] => c
  | byte :: rest => if byte = ch '\n' then ⟨rest, c.line + 1, 1⟩ else ⟨rest, c.line, c.column + 1⟩

def skip (c : Cursor) : Nat → Cursor
  | 0 => c
  | n + 1 => c.advance.skip n

/-- `while (going) advance();` -/
def advanceFrom (going : Cursor → Bool) : Text → Nat → Nat → Cursor
  | [], line, column => ⟨[], line, column⟩
  | byte :: rest, line, column =>
    if going ⟨byte :: rest, line, column⟩ then
      if byte = ch '\n' then advanceFrom going rest (line + 1) 1
      else advanceFrom going rest line (column + 1)
    else ⟨byte :: rest, line, column⟩

def advanceWhile (c : Cursor) (going : Cursor → Bool) : Cursor :=
  advanceFrom going c.rest c.line c.column

/-- A CR that may stand where it does. -/
def atCrLf (c : Cursor) : Bool := c.currentChar == ch '\r' && c.peekChar 1 == ch '\n'

def skipWhitespace (c : Cursor) : Cursor :=
  c.advanceWhile (fun c => c.currentChar == ch ' ' || c.currentChar == ch '\t' || c.atCrLf)

/-- To the end of the line, or to a control character. -/
def skipComment (c : Cursor) : Cursor :=
  c.advanceWhile (fun c =>
    c.currentChar != ch '\n' && ! (isForbiddenControl c.currentChar && ! c.atCrLf))

/-- Each turn but the last takes a line feed, so there are turns enough for the bytes left. -/
def skipLines : Nat → Cursor → Cursor
  | 0, c => c
  | turns + 1, c =>
    if c.atEnd then c
    else
      let c := c.skipWhitespace
      let c := if c.currentChar == ch '#' then c.skipComment else c
      if c.currentChar == ch '\n' then skipLines turns c.advance else c

def skipWhitespaceAndComments (c : Cursor) : Cursor := skipLines (c.rest.length + 1) c

def expectLineEnd (c : Cursor) : Reading Unit :=
  let c := c.skipWhitespace
  if ! c.atEnd && c.currentChar != ch '\n' && c.currentChar != ch '#' then
    c.fail "Expected a newline"
  else .ok ((), c)

/-! ## Going forward -/

@[simp] theorem rest_advance (c : Cursor) : c.advance.rest = c.rest.tail := by
  obtain ⟨rest, line, column⟩ := c
  cases rest with
  | nil => rfl
  | cons byte rest =>
    simp only [advance]
    split
    · rfl
    · rfl

@[simp] theorem rest_skip (c : Cursor) (n : Nat) : (c.skip n).rest = c.rest.drop n := by
  induction n generalizing c with
  | zero => rfl
  | succ n ih =>
    rw [skip, ih, rest_advance]
    exact List.drop_tail

@[simp] theorem skip_skip (c : Cursor) (m n : Nat) : (c.skip m).skip n = c.skip (m + n) := by
  induction m generalizing c with
  | zero => rw [Nat.zero_add, skip]
  | succ m ih => rw [skip, ih, Nat.succ_add, skip]

theorem advance_eq_skip (c : Cursor) : c.advance = c.skip 1 := by rw [skip, skip]

@[simp] theorem advance_skip (c : Cursor) (n : Nat) : c.advance.skip n = c.skip (n + 1) := by
  rw [skip]

@[simp] theorem skip_advance (c : Cursor) (n : Nat) : (c.skip n).advance = c.skip (n + 1) :=
  skip_skip c n 1

/-- After a text the cursor is at what comes after it. -/
theorem rest_skip_of_at {c : Cursor} {text more : Text} (here : c.rest = text ++ more) :
    (c.skip text.length).rest = more := by
  rw [rest_skip, here, List.drop_left]

theorem rest_advance_of_at {c : Cursor} {byte : UInt8} {more : Text}
    (here : c.rest = byte :: more) : c.advance.rest = more := by
  rw [rest_advance, here, List.tail_cons]

theorem currentChar_of_at {c : Cursor} {byte : UInt8} {more : Text}
    (here : c.rest = byte :: more) : c.currentChar = byte := by
  rw [currentChar, here, List.headD_cons]

theorem currentChar_of_nil {c : Cursor} (here : c.rest = []) : c.currentChar = 0 := by
  rw [currentChar, here, List.headD_nil]

theorem atEnd_of_at {c : Cursor} {byte : UInt8} {more : Text}
    (here : c.rest = byte :: more) : c.atEnd = false := by
  rw [atEnd, here, List.isEmpty_cons]

theorem advanceWhile_stop {c : Cursor} {going : Cursor → Bool} (stop : going c = false) :
    c.advanceWhile going = c := by
  obtain ⟨rest, line, column⟩ := c
  cases rest with
  | nil => rfl
  | cons byte rest => simp [advanceWhile, advanceFrom, stop]

theorem advanceWhile_step {c : Cursor} {going : Cursor → Bool} {byte : UInt8} {more : Text}
    (here : c.rest = byte :: more) (go : going c = true) :
    c.advanceWhile going = c.advance.advanceWhile going := by
  obtain ⟨rest, line, column⟩ := c
  cases here
  rw [advanceWhile, advanceFrom, if_pos go]
  by_cases newline : byte = ch '\n'
  · simp [advanceWhile, advance, newline]
  · simp [advanceWhile, advance, newline]

/-- A byte that no blank and no line end starts with. -/
def isVisible (c : UInt8) : Bool :=
  c != ch ' ' && c != ch '\t' && c != ch '\r' && c != ch '\n' && c != ch '#'

theorem skipWhitespace_stop {c : Cursor} (visible : isVisible c.currentChar = true) :
    c.skipWhitespace = c := by
  apply advanceWhile_stop
  simp only [isVisible, Bool.and_eq_true, bne_iff_ne] at visible
  simp [atCrLf, visible]

end Cursor

end Dross
