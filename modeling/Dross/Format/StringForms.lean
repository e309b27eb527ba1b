import Dross.Format.TomlParser
import Dross.Format.TomlSerializer

/-!
# The forms of a string

What `escape_string` writes for a byte is read back as that byte by both readers that know
escapes, and a literal string as it stands. A string is read from any of its forms.
-/

namespace Dross

/-- A byte that `escape_string` writes as it is. -/
def isPlain (c : UInt8) : Bool :=
  c != ch '"' && c != ch '\\' && c != ch '\t' && ! isForbiddenControl c

namespace Toml

theorem escapeByte_plain (c : UInt8) (plain : isPlain c = true) : escapeByte c = [c] := by
  revert c
  exact everyByte (by decide +kernel)

theorem length_escapeByte (c : UInt8) : 0 < (escapeByte c).length := by
  revert c
  exact everyByte (by decide +kernel)

theorem length_le_escapeString (s : Text) : s.length ≤ (escapeString s).length := by
  induction s with
  | nil => exact Nat.zero_le _
  | cons byte s ih =>
    have first := length_escapeByte byte
    rw [escapeString, List.flatMap_cons, List.length_append, List.length_cons]
    rw [escapeString] at ih
    omega

/-- What is written starts with no quote and no line end. -/
theorem escapeByte_start (c : UInt8) : ∃ byte code, escapeByte c = byte :: code ∧
    byte ≠ ch '"' ∧ byte ≠ ch '\n' ∧ byte ≠ ch '\r' := by
  have start (c : UInt8) : (escapeByte c).headD 0 ≠ ch '"' ∧ (escapeByte c).headD 0 ≠ ch '\n' ∧
      (escapeByte c).headD 0 ≠ ch '\r' := by
    revert c
    exact everyByte (by decide +kernel)
  obtain ⟨byte, code, written⟩ := List.exists_cons_of_length_pos (length_escapeByte c)
  have this := start c
  rw [written] at this
  exact ⟨byte, code, written, this⟩

/-- A byte with a letter of its own, and the letter. -/
def shortEscapes : List (UInt8 × UInt8) :=
  [(ch '"', ch '"'), (ch '\\', ch '\\'), (ch '\n', ch 'n'), (ch '\t', ch 't'),
    (ch '\r', ch 'r'), (0x08, ch 'b'), (0x0C, ch 'f')]

/-- The digits of a byte that has none. -/
def codeOf (c : UInt8) : Text :=
  [ch '0', ch '0', hexDigit (c.toNat / 16), hexDigit (c.toNat % 16)]

theorem escapeByte_escaped (c : UInt8) (escaped : isPlain c = false) :
    (∃ letter, (c, letter) ∈ shortEscapes ∧ escapeByte c = [ch '\\', letter]) ∨
      isForbiddenControl c = true ∧ escapeByte c = ch '\\' :: ch 'u' :: codeOf c := by
  have letters (c : UInt8) : isPlain c = false →
      (∃ escape ∈ shortEscapes, c = escape.1 ∧ escapeByte c = [ch '\\', escape.2]) ∨
        isForbiddenControl c = true ∧ escapeByte c = ch '\\' :: ch 'u' :: codeOf c := by
    revert c
    exact everyByte (by decide +kernel)
  rcases letters c escaped with ⟨⟨_, letter⟩, mem, rfl, written⟩ | long
  · exact Or.inl ⟨letter, mem, written⟩
  · exact Or.inr long

theorem code_read (c : UInt8) (forbidden : isForbiddenControl c = true) :
    (codeOf c).all isAsciiXdigit = true ∧ hexadecimal (codeOf c) = c.toNat ∧ c.toNat ≤ 0x7F := by
  revert c
  exact everyByte (by decide +kernel)

end Toml

namespace Cursor

open Toml

theorem appendEscape_short {c : Cursor} {byte letter : UInt8}
    (short : (byte, letter) ∈ shortEscapes) (here : c.currentChar = letter) (result : Text) :
    c.appendEscape result = .ok (result ++ [byte], c) := by
  simp only [shortEscapes, List.mem_cons, Prod.mk.injEq, List.not_mem_nil, or_false] at short
  rcases short with ⟨rfl, rfl⟩ | ⟨rfl, rfl⟩ | ⟨rfl, rfl⟩ | ⟨rfl, rfl⟩ | ⟨rfl, rfl⟩ | ⟨rfl, rfl⟩ |
    ⟨rfl, rfl⟩
  all_goals
    simp only [appendEscape, here]
    rfl

theorem appendEscape_code {c : Cursor} {byte : UInt8} {more : Text}
    (forbidden : isForbiddenControl byte = true)
    (here : c.rest = ch 'u' :: (codeOf byte ++ more)) (result : Text) :
    c.appendEscape result = .ok (result ++ [byte], c.skip 4) := by
  obtain ⟨digits, value, small⟩ := code_read byte forbidden
  have ahead : c.xdigitsAhead 4 = true := by
    simpa [xdigitsAhead, peekChar, here, codeOf, List.range_succ] using digits
  have code : c.rest.tail.take 4 = codeOf byte := by
    rw [here, List.tail_cons]
    exact List.take_left' rfl
  have encoded : encodeUtf8 byte.toNat = [byte] := by
    simp [encodeUtf8, small]
  have low : ¬ 0xD800 ≤ byte.toNat := Nat.not_le.mpr (Nat.lt_of_le_of_lt small (by decide))
  have inside : ¬ 0x10FFFF < byte.toNat := Nat.not_lt.mpr (Nat.le_trans small (by decide))
  simp +decide [appendEscape, currentChar_of_at here, ahead, code, value, encoded, low, inside]

/-- An escape is read from after its backslash to its last character. -/
theorem appendEscape_escapeByte {c : Cursor} {byte : UInt8} {more : Text}
    (escaped : isPlain byte = false) (here : c.rest = escapeByte byte ++ more) (result : Text) :
    c.advance.appendEscape result =
      .ok (result ++ [byte], c.skip ((escapeByte byte).length - 1)) := by
  rcases escapeByte_escaped byte escaped with ⟨letter, short, written⟩ | ⟨forbidden, written⟩
  · rw [written] at here ⊢
    have after : c.advance.rest = letter :: more := rest_advance_of_at here
    exact appendEscape_short short (currentChar_of_at after) result
  · rw [written] at here ⊢
    have after : c.advance.rest = ch 'u' :: (codeOf byte ++ more) := rest_advance_of_at here
    exact appendEscape_code forbidden after result

/-- It takes no line end for an escape. -/
theorem escapeByte_head {byte : UInt8} (escaped : isPlain byte = false) :
    ∃ letter code, escapeByte byte = ch '\\' :: letter :: code ∧ isVisible letter = true := by
  rcases escapeByte_escaped byte escaped with ⟨letter, short, written⟩ | ⟨forbidden, written⟩
  · refine ⟨letter, [], written, ?_⟩
    have visible : shortEscapes.all (fun escape => isVisible escape.2) = true := by decide
    exact List.all_eq_true.mp visible _ short
  · exact ⟨ch 'u', codeOf byte, written, by decide⟩

theorem isPlain_iff {byte : UInt8} : isPlain byte = true ↔
    byte ≠ ch '"' ∧ byte ≠ ch '\\' ∧ byte ≠ ch '\t' ∧ isForbiddenControl byte = false := by
  simp [isPlain, and_assoc]

/-! ## Between double quotes -/

theorem basicString_escapeByte {kind : String} {turns : Nat} {c : Cursor} {byte : UInt8}
    {result more : Text} (here : c.rest = escapeByte byte ++ more) :
    basicString kind (turns + 1) c result =
      basicString kind turns (c.skip (escapeByte byte).length) (result ++ [byte]) := by
  cases plain : isPlain byte with
  | true =>
    rw [escapeByte_plain byte plain] at here ⊢
    obtain ⟨quote, backslash, tab, control⟩ := isPlain_iff.mp plain
    simp [basicString, atEnd_of_at here, currentChar_of_at here, quote, backslash, control,
      advance_eq_skip]
  | false =>
    obtain ⟨letter, code, written, visible⟩ := escapeByte_head plain
    have read := appendEscape_escapeByte plain here result
    rw [written] at here read ⊢
    have inside : c.advance.atEnd = false := atEnd_of_at (rest_advance_of_at here)
    have backslash : ch '\\' ≠ ch '"' := by decide
    simp [basicString, atEnd_of_at here, currentChar_of_at here, backslash, inside, read]

theorem basicString_escapeString {kind : String} {turns : Nat} {c : Cursor} {result s more : Text}
    (here : c.rest = escapeString s ++ ch '"' :: more) (enough : s.length < turns) :
    basicString kind turns c result =
      .ok (result ++ s, c.skip ((escapeString s).length + 1)) := by
  induction s generalizing turns c result with
  | nil =>
    obtain ⟨turns, rfl⟩ := Nat.exists_eq_add_one_of_ne_zero (Nat.ne_of_gt enough)
    have closing : c.rest = ch '"' :: more := here
    simp [basicString, atEnd_of_at closing, currentChar_of_at closing, escapeString,
      advance_eq_skip]
  | cons byte s ih =>
    obtain ⟨turns, rfl⟩ := Nat.exists_eq_add_one_of_ne_zero (Nat.ne_of_gt (Nat.zero_lt_of_lt enough))
    have first : c.rest = escapeByte byte ++ (escapeString s ++ ch '"' :: more) := by
      simpa [escapeString] using here
    have after := rest_skip_of_at first
    rw [basicString_escapeByte first, ih after (Nat.lt_of_succ_lt_succ enough)]
    simp [escapeString, Nat.add_assoc]

theorem parseBasicString_quoted {c : Cursor} {s more : Text} (kind : String)
    (here : c.rest = quoted s ++ more) :
    c.parseBasicString kind = .ok (s, c.skip (quoted s).length) := by
  have opening : c.rest = ch '"' :: (escapeString s ++ ch '"' :: more) := by
    simpa [quoted] using here
  have inside := rest_advance_of_at opening
  have enough : s.length < c.advance.rest.length + 1 := by
    have := length_le_escapeString s
    rw [inside, List.length_append]
    omega
  rw [parseBasicString, basicString_escapeString inside enough]
  simp [currentChar_of_at opening, quoted]

/-! ## Over several lines -/

theorem atLineEnd_of_peek {c : Cursor} {offset : Nat} {byte : UInt8}
    (here : c.peekChar offset = byte) (feed : byte ≠ ch '\n') (back : byte ≠ ch '\r') :
    c.atLineEnd offset = false := by
  simp [atLineEnd, here, feed, back]

theorem not_lineEnd {byte : UInt8} (allowed : isForbiddenControl byte = false) :
    byte ≠ ch '\n' ∧ byte ≠ ch '\r' := by
  constructor
  · rintro rfl
    cases allowed
  · rintro rfl
    cases allowed

theorem peekChar_of_at {c : Cursor} (front : Text) {more : Text} {byte : UInt8}
    (here : c.rest = front ++ byte :: more) : c.peekChar front.length = byte := by
  simp [peekChar, here]

theorem multiLineString_escapeByte {kind : String} {turns : Nat} {c : Cursor} {byte : UInt8}
    {result more : Text} (here : c.rest = escapeByte byte ++ more) :
    multiLineString (ch '"') kind (turns + 1) c result =
      multiLineString (ch '"') kind turns (c.skip (escapeByte byte).length)
        (result ++ [byte]) := by
  cases plain : isPlain byte with
  | true =>
    rw [escapeByte_plain byte plain] at here ⊢
    obtain ⟨quote, backslash, tab, control⟩ := isPlain_iff.mp plain
    obtain ⟨feed, back⟩ := not_lineEnd control
    have inLine : c.atLineEnd 0 = false := atLineEnd_of_peek (peekChar_of_at [] here) feed back
    simp [multiLineString, atEnd_of_at here, currentChar_of_at here, quote, backslash, inLine,
      control, advance_eq_skip]
  | false =>
    obtain ⟨letter, code, written, visible⟩ := escapeByte_head plain
    have read := appendEscape_escapeByte plain here result
    rw [written] at here read ⊢
    simp only [isVisible, Bool.and_eq_true, bne_iff_ne] at visible
    obtain ⟨⟨⟨⟨space, tab⟩, back⟩, feed⟩, -⟩ := visible
    have backslash : ch '\\' ≠ ch '"' := by decide
    have noBlanks : c.blanksAhead = 0 := by simp [blanksAhead, here, space, tab]
    have inLine : c.atLineEnd 1 = false :=
      atLineEnd_of_peek (peekChar_of_at [ch '\\'] here) feed back
    have goesOn : ¬ c.rest.length ≤ 1 := by simp [here]
    simp [multiLineString, atEnd_of_at here, currentChar_of_at here, backslash, read, noBlanks,
      inLine, goesOn]

/-- Up to two quotes are read before the three that close. -/
theorem multiLineString_closing {quote : UInt8} {kind : String} {turns extra : Nat} {c : Cursor}
    {result more : Text} (few : extra ≤ 2) (nonzero : quote ≠ 0)
    (here : c.rest = List.replicate (extra + 3) quote ++ more) (next : more.head? ≠ some quote) :
    multiLineString quote kind (turns + 1) c result =
      .ok (result ++ List.replicate extra quote, c.skip (3 + extra)) := by
  have opening : c.rest = quote :: quote :: quote :: (List.replicate extra quote ++ more) := by
    rw [here, Nat.add_comm, List.replicate_add]
    rfl
  have after : more.getD 0 0 ≠ quote := by
    cases more with
    | nil => exact nonzero.symm
    | cons byte more => simpa using next
  have extras : c.extraQuotes quote = extra := by
    simp only [extraQuotes, peekChar, opening, List.getD_cons_succ, beq_iff_eq]
    have cases : extra = 0 ∨ extra = 1 ∨ extra = 2 := by omega
    rcases cases with rfl | rfl | rfl
    · simp only [List.replicate_zero, List.nil_append, if_neg after]
    · simpa [List.replicate_succ] using after
    · simp [List.replicate_succ]
  simp [multiLineString, atEnd_of_at opening, currentChar_of_at opening, peekChar, opening, extras]

theorem multiLineString_escapeString {kind : String} {turns : Nat} {c : Cursor}
    {result s more : Text}
    (here : c.rest = escapeString s ++ (List.replicate 3 (ch '"') ++ more))
    (next : more.head? ≠ some (ch '"')) (enough : s.length < turns) :
    multiLineString (ch '"') kind turns c result =
      .ok (result ++ s, c.skip ((escapeString s).length + 3)) := by
  induction s generalizing turns c result with
  | nil =>
    obtain ⟨turns, rfl⟩ := Nat.exists_eq_add_one_of_ne_zero (Nat.ne_of_gt enough)
    have closing : c.rest = List.replicate (0 + 3) (ch '"') ++ more := here
    rw [multiLineString_closing (Nat.zero_le 2) (by decide) closing next]
    simp [escapeString]
  | cons byte s ih =>
    obtain ⟨turns, rfl⟩ := Nat.exists_eq_add_one_of_ne_zero (Nat.ne_of_gt (Nat.zero_lt_of_lt enough))
    have first : c.rest =
        escapeByte byte ++ (escapeString s ++ (List.replicate 3 (ch '"') ++ more)) := by
      simpa [escapeString] using here
    have after := rest_skip_of_at first
    rw [multiLineString_escapeByte first, ih after (Nat.lt_of_succ_lt_succ enough)]
    simp [escapeString, Nat.add_assoc]

/-! ## Between single quotes -/

/-- What a literal string of several lines can hold. -/
structure IsLiteralText (s : Text) : Prop where
  noQuotes : ¬ List.replicate 3 (ch '\'') <:+: s
  noControl : ∀ front byte back, s = front ++ byte :: back → byte < 0x20 ∨ byte = 0x7F →
    byte = ch '\t' ∨ byte = ch '\n' ∨ byte = ch '\r' ∧ back.head? = some (ch '\n')

namespace IsLiteralText

theorem tail {byte : UInt8} {s : Text} (literal : IsLiteralText (byte :: s)) :
    IsLiteralText s where
  noQuotes run := literal.noQuotes (run.trans (List.suffix_cons byte s).isInfix)
  noControl front inner back split control :=
    literal.noControl (byte :: front) inner back (congrArg (byte :: ·) split) control

theorem allowed {byte : UInt8} {s : Text} (literal : IsLiteralText (byte :: s))
    (feed : byte ≠ ch '\n') (crlf : ¬ (byte = ch '\r' ∧ s.head? = some (ch '\n'))) :
    byte ≠ ch '\r' ∧ isForbiddenControl byte = false := by
  have only := literal.noControl [] byte s rfl
  constructor
  · rintro rfl
    rcases only (Or.inl (by decide)) with tab | feed | crlf'
    · cases tab
    · cases feed
    · exact crlf crlf'
  · cases forbidden : isForbiddenControl byte with
    | false => rfl
    | true =>
      have control : (byte < 0x20 ∧ byte ≠ ch '\t') ∨ byte = 0x7F := by
        simpa [isForbiddenControl] using forbidden
      rcases only (control.imp_left And.left) with rfl | feed' | crlf'
      · rcases control with low | delete
        · exact absurd rfl low.2
        · cases delete
      · exact absurd feed' feed
      · exact absurd crlf' crlf

/-- Three quotes in a row close the string, and what they leave of it is quotes. -/
theorem closing {s more : Text} (literal : IsLiteralText s)
    (quotes : (s ++ (List.replicate 3 (ch '\'') ++ more)).take 3 = List.replicate 3 (ch '\'')) :
    ∃ extra ≤ 2, s = List.replicate extra (ch '\'') := by
  rcases s with _ | ⟨first, _ | ⟨second, _ | ⟨third, s⟩⟩⟩
  · exact ⟨0, Nat.zero_le 2, rfl⟩
  · have same : first = ch '\'' := (List.cons.inj quotes).1
    exact ⟨1, by decide, by rw [same, List.replicate_one]⟩
  · have same := (List.cons.inj quotes).1
    have same' := (List.cons.inj (List.cons.inj quotes).2).1
    exact ⟨2, le_rfl, by rw [same, same']; rfl⟩
  · refine absurd ⟨[], s, ?_⟩ literal.noQuotes
    rw [← quotes]
    rfl

end IsLiteralText

/-- The look ahead of the reader, as the text there. -/
theorem three_of_peek {c : Cursor} {quote : UInt8} (nonzero : quote ≠ 0)
    (ahead : (c.currentChar = quote ∧ c.peekChar 1 = quote) ∧ c.peekChar 2 = quote) :
    c.rest.take 3 = List.replicate 3 quote := by
  obtain ⟨rest, line, column⟩ := c
  obtain ⟨⟨first, second⟩, third⟩ := ahead
  rcases rest with _ | ⟨a, _ | ⟨b, _ | ⟨d, rest⟩⟩⟩
  · exact absurd first.symm nonzero
  · exact absurd second.symm nonzero
  · exact absurd third.symm nonzero
  · obtain ⟨rfl, rfl, rfl⟩ : a = quote ∧ b = quote ∧ d = quote := ⟨first, second, third⟩
    rfl

section

variable {kind : String} {turns : Nat} {c : Cursor} {result more : Text}

theorem noEscapes : ch '\'' ≠ ch '"' := by decide

theorem multiLineString_crlf (here : c.rest = ch '\r' :: ch '\n' :: more) :
    multiLineString (ch '\'') kind (turns + 1) c result =
      multiLineString (ch '\'') kind turns (c.skip 2) (result ++ [ch '\r', ch '\n']) := by
  have lineEnd : c.atLineEnd 0 = true := by simp [atLineEnd, peekChar, here]
  have quote : ch '\r' ≠ ch '\'' := by decide
  simp [multiLineString, atEnd_of_at here, currentChar_of_at here, lineEnd, skipLineEnd, quote,
    noEscapes, advance_eq_skip]

theorem multiLineString_feed (here : c.rest = ch '\n' :: more) :
    multiLineString (ch '\'') kind (turns + 1) c result =
      multiLineString (ch '\'') kind turns c.advance (result ++ [ch '\n']) := by
  have lineEnd : c.atLineEnd 0 = true := by simp [atLineEnd, peekChar, here]
  have quote : ch '\n' ≠ ch '\'' := by decide
  have back : ch '\n' ≠ ch '\r' := by decide
  simp [multiLineString, atEnd_of_at here, currentChar_of_at here, lineEnd, skipLineEnd, quote, back,
    noEscapes]

theorem multiLineString_byte {byte : UInt8} (here : c.rest = byte :: more)
    (inside : c.rest.take 3 ≠ List.replicate 3 (ch '\'')) (feed : byte ≠ ch '\n')
    (back : byte ≠ ch '\r') (allowed : isForbiddenControl byte = false) :
    multiLineString (ch '\'') kind (turns + 1) c result =
      multiLineString (ch '\'') kind turns c.advance (result ++ [byte]) := by
  have inLine : c.atLineEnd 0 = false := atLineEnd_of_peek (peekChar_of_at [] here) feed back
  have notClosing := mt (three_of_peek (by decide)) inside
  rw [currentChar_of_at here] at notClosing
  simp [multiLineString, atEnd_of_at here, currentChar_of_at here, inLine, allowed, notClosing,
    noEscapes]

end

theorem multiLineString_literal {kind : String} {turns : Nat} {c : Cursor} {result s more : Text}
    (literal : IsLiteralText s) (here : c.rest = s ++ (List.replicate 3 (ch '\'') ++ more))
    (next : more.head? ≠ some (ch '\'')) (enough : s.length < turns) :
    multiLineString (ch '\'') kind turns c result =
      .ok (result ++ s, c.skip (s.length + 3)) := by
  induction turns generalizing c result s with
  | zero => cases enough
  | succ turns ih =>
    cases s with
    | nil =>
      have closing : c.rest = List.replicate (0 + 3) (ch '\'') ++ more := here
      exact multiLineString_closing (Nat.zero_le 2) (by decide) closing next
    | cons byte s =>
      have after : c.advance.rest = s ++ (List.replicate 3 (ch '\'') ++ more) :=
        rest_advance_of_at here
      have enough' : s.length < turns := Nat.lt_of_succ_lt_succ enough
      by_cases quotes : c.rest.take 3 = List.replicate 3 (ch '\'')
      · rw [here] at quotes
        obtain ⟨extra, few, same⟩ := literal.closing quotes
        have closing : c.rest = List.replicate (extra + 3) (ch '\'') ++ more := by
          rw [here, same, List.replicate_add, List.append_assoc]
        rw [multiLineString_closing few (by decide) closing next, same, List.length_replicate,
          Nat.add_comm 3]
      · by_cases crlf : byte = ch '\r' ∧ s.head? = some (ch '\n')
        · obtain ⟨rfl, feed⟩ := crlf
          obtain ⟨s, rfl⟩ := List.head?_eq_some_iff.mp feed
          have after' : (c.skip 2).rest = s ++ (List.replicate 3 (ch '\'') ++ more) :=
            rest_advance_of_at after
          rw [multiLineString_crlf here, ih literal.tail.tail after' (Nat.lt_of_succ_lt enough')]
          simp [Nat.add_comm, Nat.add_left_comm]
        · by_cases feed : byte = ch '\n'
          · subst feed
            rw [multiLineString_feed here, ih literal.tail after enough']
            simp [Nat.add_comm, Nat.add_left_comm]
          · obtain ⟨back, allowed⟩ := literal.allowed feed crlf
            rw [multiLineString_byte here quotes feed back allowed, ih literal.tail after enough']
            simp [Nat.add_comm, Nat.add_left_comm]

/-! ## As values -/

theorem atInfOrNan_quote {c : Cursor} {quote : UInt8} {more : Text}
    (quotes : quote = ch '"' ∨ quote = ch '\'') (here : c.rest = quote :: more) :
    c.atInfOrNan = false := by
  have sign : quote ≠ ch '+' ∧ quote ≠ ch '-' := by
    rcases quotes with rfl | rfl
    · decide
    · decide
  have letter : quote ≠ ch 'i' ∧ quote ≠ ch 'n' := by
    rcases quotes with rfl | rfl
    · decide
    · decide
  simp [atInfOrNan, currentChar_of_at here, sign, here, letter]

/-- A quote starts a string. -/
theorem parseValue_string {c : Cursor} {quote : UInt8} {more : Text} (turns : Nat)
    (quotes : quote = ch '"' ∨ quote = ch '\'') (here : c.rest = quote :: more) :
    parseValue (turns + 1) c = c.parseString.map (fun read => (.string read.1, read.2)) := by
  have visible : isVisible c.currentChar = true := by
    rw [currentChar_of_at here]
    rcases quotes with rfl | rfl
    · decide
    · decide
  rw [parseValue, skipWhitespace_stop visible, currentChar_of_at here]
  simp [atInfOrNan_quote quotes here, quotes]

end Cursor

namespace Toml

/-- `"""`, the escaped text and `"""`. -/
def tripleQuoted (s : Text) : Text :=
  List.replicate 3 (ch '"') ++ (escapeString s ++ List.replicate 3 (ch '"'))

/-- `'''`, a line feed, the text and `'''`. -/
def literalForm (s : Text) : Text :=
  List.replicate 3 (ch '\'') ++ ch '\n' :: (s ++ List.replicate 3 (ch '\''))

/-- Wherever the form stands and no quote of its kind comes after it, it is read as the text,
and the parser stops right after it. -/
def ReadsAs (form : Text) (quote : UInt8) (s : Text) : Prop :=
  ∀ (turns : Nat) (c : Cursor) (more : Text), c.rest = form ++ more → more.head? ≠ some quote →
    Cursor.parseValue (turns + 1) c = .ok (.string s, c.skip form.length) ∧
      (c.skip form.length).rest = more

open Cursor

/-- An empty string and a quote after it would open a longer form. -/
theorem quoted_single {c : Cursor} {s more : Text}
    (opening : c.rest = ch '"' :: (escapeString s ++ ch '"' :: more))
    (next : more.head? ≠ some (ch '"')) : ¬ (c.peekChar 1 = ch '"' ∧ c.peekChar 2 = ch '"') := by
  rintro ⟨second, third⟩
  rw [peekChar, opening] at second third
  cases s with
  | nil =>
    cases more with
    | nil => exact absurd third (by decide)
    | cons byte more => exact next (congrArg some third)
  | cons byte s =>
    obtain ⟨first, code, written, quote, -⟩ := escapeByte_start byte
    rw [escapeString, List.flatMap_cons, written] at second
    exact quote second

theorem quoted_reads (s : Text) : ReadsAs (quoted s) (ch '"') s := by
  intro turns c more here next
  have opening : c.rest = ch '"' :: (escapeString s ++ ch '"' :: more) := by
    simpa [quoted] using here
  have single := quoted_single opening next
  refine ⟨?_, rest_skip_of_at here⟩
  rw [parseValue_string turns (Or.inl rfl) opening, parseString, currentChar_of_at opening]
  simp [single, parseBasicString_quoted "string" here, Except.map]

theorem tripleQuoted_reads (s : Text) : ReadsAs (tripleQuoted s) (ch '"') s := by
  intro turns c more here next
  have opening : c.rest = ch '"' :: ch '"' :: ch '"' ::
      (escapeString s ++ (List.replicate 3 (ch '"') ++ more)) := by
    simpa [tripleQuoted, List.replicate_succ] using here
  have inside : (c.skip 3).rest = escapeString s ++ (List.replicate 3 (ch '"') ++ more) := by
    rw [rest_skip, opening]
    rfl
  have inLine : (c.skip 3).atLineEnd 0 = false := by
    cases s with
    | nil => exact atLineEnd_of_peek (peekChar_of_at [] inside) (by decide) (by decide)
    | cons byte s =>
      obtain ⟨first, code, written, -, feed, back⟩ := escapeByte_start byte
      rw [escapeString, List.flatMap_cons, written] at inside
      exact atLineEnd_of_peek (peekChar_of_at [] inside) feed back
  have enough : s.length < (c.skip 3).rest.length + 1 := by
    have := length_le_escapeString s
    rw [inside, List.length_append]
    omega
  have length : (tripleQuoted s).length = 3 + ((escapeString s).length + 3) := by
    simp [tripleQuoted]
    omega
  have read : c.parseMultiLineString (ch '"') "multi-line string" =
      .ok (s, c.skip (tripleQuoted s).length) := by
    simp only [parseMultiLineString, inLine, Bool.false_eq_true, if_false]
    rw [multiLineString_escapeString inside next enough, skip_skip, List.nil_append, length]
  refine ⟨?_, rest_skip_of_at here⟩
  rw [parseValue_string turns (Or.inl rfl) opening, parseString, currentChar_of_at opening]
  simp [peekChar, opening, read, Except.map]

theorem literalForm_reads {s : Text} (literal : IsLiteralText s) :
    ReadsAs (literalForm s) (ch '\'') s := by
  intro turns c more here next
  have opening : c.rest = ch '\'' :: ch '\'' :: ch '\'' :: ch '\n' ::
      (s ++ (List.replicate 3 (ch '\'') ++ more)) := by
    simpa [literalForm, List.replicate_succ] using here
  have firstLine : (c.skip 3).rest = ch '\n' :: (s ++ (List.replicate 3 (ch '\'') ++ more)) := by
    rw [rest_skip, opening]
    rfl
  have lineEnd : (c.skip 3).atLineEnd 0 = true := by simp [atLineEnd, peekChar, opening]
  have dropped : (c.skip 3).skipLineEnd = c.skip 4 := by
    have back : ch '\n' ≠ ch '\r' := by decide
    simp [skipLineEnd, currentChar_of_at firstLine, back]
  have inside : (c.skip 4).rest = s ++ (List.replicate 3 (ch '\'') ++ more) := by
    rw [rest_skip, opening]
    rfl
  have enough : s.length < (c.skip 4).rest.length + 1 := by
    rw [inside, List.length_append]
    omega
  have length : (literalForm s).length = 4 + (s.length + 3) := by
    simp [literalForm]
    omega
  have read : c.parseMultiLineString (ch '\'') "multi-line literal string" =
      .ok (s, c.skip (literalForm s).length) := by
    simp only [parseMultiLineString, lineEnd, if_true, dropped]
    rw [multiLineString_literal literal inside next enough, skip_skip, List.nil_append, length]
  refine ⟨?_, rest_skip_of_at here⟩
  rw [parseValue_string turns (Or.inr rfl) opening, parseString, currentChar_of_at opening]
  simp [peekChar, opening, noEscapes, read, Except.map]

/-- A text is read from each form it has. -/
theorem string_forms_agree (s : Text) :
    ReadsAs (quoted s) (ch '"') s ∧ ReadsAs (tripleQuoted s) (ch '"') s ∧
      (IsLiteralText s → ReadsAs (literalForm s) (ch '\'') s) :=
  ⟨quoted_reads s, tripleQuoted_reads s, literalForm_reads⟩

theorem isLiteralText_quote : IsLiteralText [ch '\''] where
  noQuotes := by decide
  noControl front byte back split control := by
    have mem : byte ∈ [ch '\''] := by simp [split]
    rw [List.mem_singleton.mp mem] at control
    exact absurd control (by decide)

theorem string_forms_agree_quote :
    IsLiteralText [ch '\''] ∧
      Cursor.parseValue 1 (Cursor.start (literalForm [ch '\''] ++ [ch '\n'])) =
        .ok (.string [ch '\''], (Cursor.start (literalForm [ch '\''] ++ [ch '\n'])).skip 8) :=
  ⟨isLiteralText_quote,
    ((string_forms_agree [ch '\'']).2.2 isLiteralText_quote 0 _ [ch '\n'] rfl (by decide)).1⟩

end Toml

end Dross
