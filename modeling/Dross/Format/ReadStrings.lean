import Dross.Format.ParserCalls
import Dross.Format.StringForms

/-!
# What strings and keys are read as

A valid text splits at a byte of ASCII, and every string and key starts and ends at one.
Within, what is gathered and what is left make up a valid text, however much of it is
escapes.
-/

namespace Dross

theorem valid_both {s t : Text} (valid : isValidUtf8 s = true) (valid' : isValidUtf8 t = true) :
    isValidUtf8 (s ++ t) = true := (valid_append valid t).trans valid'

theorem valid_drop_ascii {s t : Text} (ascii : ∀ c ∈ s, c ≤ 0x7F)
    (valid : isValidUtf8 (s ++ t) = true) : isValidUtf8 t = true :=
  (valid_append (valid_ascii ascii) t).symm.trans valid

namespace Cursor

/-- A part of the parser returns what this holds of, where it returns a value. -/
def Gives {α : Type} (P : α → Cursor → Prop) (r : Reading α) : Prop :=
  ∀ a d, r = .ok (a, d) → P a d

/-- What is left of a valid input. -/
def OfValid (c : Cursor) : Prop := ∃ input, isValidUtf8 input = true ∧ c.rest <:+ input

variable {α β : Type} {P : α → Cursor → Prop} {r : Reading α} {c d : Cursor}

namespace Gives

theorem error {e : Stop} : Gives P (.error e : Reading α) := by
  intro a d read
  cases read

theorem fail (message : String) : Gives P (c.fail message : Reading α) := error

theorem ok {a : α} (h : P a c) : Gives P (.ok (a, c)) := by
  intro b d read
  cases read
  exact h

theorem ite {p : Prop} [Decidable p] {q : Reading α} (yes : p → Gives P q) (no : ¬p → Gives P r) :
    Gives P (if p then q else r) := by
  split
  · exact yes ‹_›
  · exact no ‹_›

theorem map {Q : β → Cursor → Prop} (h : Gives P r) (f : α → β) (keeps : ∀ a d, P a d → Q (f a) d) :
    Gives Q (r.map (fun read => (f read.1, read.2))) := by
  rcases r with e | ⟨a, d⟩
  · exact error
  · exact ok (keeps a d (h a d rfl))

end Gives

theorem OfValid.past {n : Nat} (h : c.OfValid) (past : c.Past n d) : d.OfValid := by
  obtain ⟨input, valid, inside⟩ := h
  exact ⟨input, valid, past.suffix.trans inside⟩

/-- In front of a byte of ASCII what is left is valid itself. -/
theorem OfValid.valid {byte : UInt8} {more : Text} (h : c.OfValid) (here : c.rest = byte :: more)
    (ascii : byte ≤ 0x7F) : isValidUtf8 c.rest = true := by
  obtain ⟨input, valid, before, rfl⟩ := h
  rw [here] at valid ⊢
  rw [valid_cons_ascii ascii]
  exact ((valid_split ascii).mp valid).2

/-- A byte that is looked at is there, where it is not the one for the end. -/
theorem rest_of_current {byte : UInt8} (current : c.currentChar = byte) (nonzero : byte ≠ 0) :
    ∃ more, c.rest = byte :: more := by
  obtain ⟨rest, line, column⟩ := c
  cases rest with
  | nil => exact absurd current.symm nonzero
  | cons b more =>
    obtain rfl : b = byte := current
    exact ⟨more, rfl⟩

theorem rest_inside (inside : c.atEnd = false) : ∃ more, c.rest = c.currentChar :: more := by
  obtain ⟨rest, line, column⟩ := c
  cases rest with
  | nil => cases inside
  | cons b more => exact ⟨more, rfl⟩

/-! ## Escapes -/

theorem xdigit_ascii (c : UInt8) (digit : isAsciiXdigit c = true) : c ≤ 0x7F := by
  revert c
  exact everyByte (by decide +kernel)

theorem advance_valid {byte : UInt8} (current : c.currentChar = byte) (ascii : byte ≤ 0x7F)
    (nonzero : byte ≠ 0) (valid : isValidUtf8 c.rest = true) : isValidUtf8 c.advance.rest = true := by
  obtain ⟨more, here⟩ := rest_of_current current nonzero
  rw [here, valid_cons_ascii ascii] at valid
  rwa [rest_advance_of_at here]

theorem appendEscape_valid {result : Text} (gathered : isValidUtf8 result = true)
    (valid : isValidUtf8 c.rest = true) :
    Gives (fun text d => isValidUtf8 (text ++ d.advance.rest) = true) (c.appendEscape result) := by
  have short {letter code : UInt8} (current : c.currentChar = letter) (ascii : letter ≤ 0x7F)
      (nonzero : letter ≠ 0) (ascii' : code ≤ 0x7F) :
      Gives (fun text d => isValidUtf8 (text ++ d.advance.rest) = true)
        (.ok (result ++ [code], c) : Reading Text) := by
    refine .ok (valid_both (valid_both gathered ?_) (advance_valid current ascii nonzero valid))
    rw [valid_cons_ascii ascii']
    exact valid_nil
  unfold appendEscape
  refine .ite (fun h => short h (by decide) (by decide) (by decide)) fun _ => ?_
  refine .ite (fun h => short h (by decide) (by decide) (by decide)) fun _ => ?_
  refine .ite (fun h => short h (by decide) (by decide) (by decide)) fun _ => ?_
  refine .ite (fun h => short h (by decide) (by decide) (by decide)) fun _ => ?_
  refine .ite (fun h => short h (by decide) (by decide) (by decide)) fun _ => ?_
  refine .ite (fun h => short h (by decide) (by decide) (by decide)) fun _ => ?_
  refine .ite (fun h => short h (by decide) (by decide) (by decide)) fun _ => ?_
  refine .ite (fun letter => ?_) fun _ => .fail _
  simp only
  generalize (if c.currentChar = ch 'u' then 4 else 8) = digits
  refine .ite (fun _ => .fail _) fun ahead => .ite (fun _ => .fail _) fun scalar => .ok ?_
  have encoded : isValidUtf8 (encodeUtf8 (hexadecimal ((c.rest.drop 1).take digits))) = true := by
    refine valid_encodeUtf8 ?_
    simp only [Bool.or_eq_true, Bool.and_eq_true, decide_eq_true_eq, not_or, gt_iff_lt] at scalar
    exact ⟨scalar.1, by omega⟩
  refine valid_both (valid_both gathered encoded) ?_
  have behind : isValidUtf8 (c.rest.drop 1) = true := by
    rw [List.drop_one, ← rest_advance]
    rw [Bool.or_eq_true, decide_eq_true_eq, decide_eq_true_eq] at letter
    rcases letter with small | large
    · exact advance_valid small (by decide) (by decide) valid
    · exact advance_valid large (by decide) (by decide) valid
  obtain ⟨-, digit⟩ := Throwing.xdigits_inside (by simpa using ahead)
  rw [← List.take_append_drop digits (c.rest.drop 1)] at behind
  rw [skip_advance, rest_skip, Nat.add_comm, ← List.drop_drop]
  exact valid_drop_ascii (fun b mem => xdigit_ascii b (digit b mem)) behind

/-! ## Strings -/

theorem basicString_valid {kind : String} (n : Nat) {result : Text}
    (valid : isValidUtf8 (result ++ c.rest) = true) :
    Gives (fun text _ => isValidUtf8 text = true) (basicString kind n c result) := by
  induction n generalizing c result with
  | zero => exact .error
  | succ n ih =>
    unfold basicString
    refine .ite (fun inside => ?_) fun _ => .ite (fun _ => .fail _) fun closed => ?_
    · rw [Bool.and_eq_true, Bool.not_eq_true'] at inside
      obtain ⟨more, here⟩ := rest_inside inside.1
      refine .ite (fun back => ?_) fun _ => .ite (fun _ => .fail _) fun _ => ?_
      · rw [here, back, valid_split (by decide)] at valid
        refine .ite (fun _ => .fail _) fun _ => ?_
        have behind : isValidUtf8 c.advance.rest = true := by
          rw [rest_advance_of_at here]
          exact valid.2
        have escape := appendEscape_valid valid.1 behind
        rcases read : c.advance.appendEscape result with e | ⟨text, d⟩
        · exact .error
        · exact ih (escape text d read)
      · refine ih ?_
        rw [rest_advance_of_at here, List.append_assoc, List.singleton_append, ← here]
        exact valid
    · obtain ⟨more, here⟩ :=
        rest_of_current (not_not.mp (mt bne_iff_ne.mpr closed)) (show ch '"' ≠ 0 by decide)
      rw [here, valid_split (by decide)] at valid
      exact .ok valid.1

theorem literalString_valid {kind : String} (n : Nat) {result : Text}
    (valid : isValidUtf8 (result ++ c.rest) = true) :
    Gives (fun text _ => isValidUtf8 text = true) (literalString kind n c result) := by
  induction n generalizing c result with
  | zero => exact .error
  | succ n ih =>
    unfold literalString
    refine .ite (fun inside => ?_) fun _ => .ite (fun _ => .fail _) fun closed => ?_
    · rw [Bool.and_eq_true, Bool.not_eq_true'] at inside
      obtain ⟨more, here⟩ := rest_inside inside.1
      refine .ite (fun _ => .fail _) fun _ => ih ?_
      rw [rest_advance_of_at here, List.append_assoc, List.singleton_append, ← here]
      exact valid
    · obtain ⟨more, here⟩ :=
        rest_of_current (not_not.mp (mt bne_iff_ne.mpr closed)) (show ch '\'' ≠ 0 by decide)
      rw [here, valid_split (by decide)] at valid
      exact .ok valid.1

theorem advanceWhile_valid {going : Cursor → Bool}
    (ascii : ∀ c : Cursor, going c = true → c.currentChar ≤ 0x7F)
    (valid : isValidUtf8 c.rest = true) : isValidUtf8 (c.advanceWhile going).rest = true := by
  obtain ⟨rest, more⟩ : ∃ rest, c.rest = rest := ⟨_, rfl⟩
  induction rest generalizing c with
  | nil =>
    obtain ⟨rest, line, column⟩ := c
    cases more
    exact valid
  | cons byte rest ih =>
    by_cases go : going c = true
    · have small := ascii c go
      rw [currentChar_of_at more] at small
      rw [more, valid_cons_ascii small] at valid
      rw [advanceWhile_step more go]
      have next := rest_advance_of_at more
      exact ih (by rw [next]; exact valid) next
    · rw [advanceWhile_stop (Bool.eq_false_iff.mpr go)]
      exact valid


theorem rest_of_lineEnd (ended : c.atLineEnd 0 = true) :
    (∃ more, c.rest = ch '\n' :: more) ∨ ∃ more, c.rest = ch '\r' :: ch '\n' :: more := by
  obtain ⟨rest, line, column⟩ := c
  simp only [atLineEnd, peekChar, Bool.or_eq_true, Bool.and_eq_true, beq_iff_eq] at ended
  rcases rest with _ | ⟨byte, rest⟩
  · rcases ended with feed | ⟨cr, -⟩
    · exact absurd feed (by decide)
    · exact absurd cr (by decide)
  · rcases ended with feed | ⟨cr, feed⟩
    · obtain rfl : byte = ch '\n' := feed
      exact Or.inl ⟨rest, rfl⟩
    · obtain rfl : byte = ch '\r' := cr
      cases rest with
      | nil => exact absurd feed (by decide)
      | cons next more =>
        obtain rfl : next = ch '\n' := feed
        exact Or.inr ⟨more, rfl⟩

/-- A line end moves from what is left to what is gathered as it is. -/
theorem lineEnd_text (ended : c.atLineEnd 0 = true) (result : Text) :
    ((if c.currentChar == ch '\r' then result ++ [ch '\r'] else result) ++ [ch '\n']) ++
      c.skipLineEnd.rest = result ++ c.rest := by
  rw [skipLineEnd]
  rcases rest_of_lineEnd ended with ⟨more, here⟩ | ⟨more, here⟩
  · rw [currentChar_of_at here, if_neg (by decide), if_neg (by decide), rest_advance_of_at here, here,
      List.append_assoc, List.singleton_append]
  · rw [currentChar_of_at here, beq_self_eq_true, if_pos rfl, if_pos rfl,
      rest_advance_of_at (rest_advance_of_at here), here]
    simp

theorem blankLine_ascii (c : Cursor)
    (blank : (c.currentChar == ch ' ' || c.currentChar == ch '\t' || c.atLineEnd 0) = true) :
    c.currentChar ≤ 0x7F := by
  simp only [Bool.or_eq_true, beq_iff_eq] at blank
  rcases blank with (space | tab) | ended
  · rw [space]
    decide
  · rw [tab]
    decide
  · rcases rest_of_lineEnd ended with ⟨more, here⟩ | ⟨more, here⟩
    · rw [currentChar_of_at here]
      decide
    · rw [currentChar_of_at here]
      decide

theorem multiLineString_valid {quote : UInt8} {kind : String} (ascii : quote ≤ 0x7F) (n : Nat)
    {result : Text} (valid : isValidUtf8 (result ++ c.rest) = true) :
    Gives (fun text _ => isValidUtf8 text = true) (multiLineString quote kind n c result) := by
  induction n generalizing c result with
  | zero => exact .error
  | succ n ih =>
    unfold multiLineString
    refine .ite (fun _ => .fail _) fun more => ?_
    obtain ⟨more, here⟩ := rest_inside (Bool.eq_false_iff.mpr more)
    refine .ite (fun closing => ?_) fun _ => .ite (fun back => ?_) fun _ => ?_
    · simp only [Bool.and_eq_true, beq_iff_eq] at closing
      rw [here, closing.1.1, valid_split ascii] at valid
      refine .ok (valid_both valid.1 (valid_ascii fun b mem => ?_))
      rw [List.eq_of_mem_replicate mem]
      exact ascii
    · simp only [Bool.and_eq_true, beq_iff_eq] at back
      rw [here, back.2, valid_split (by decide)] at valid
      have behind : isValidUtf8 c.advance.rest = true := by
        rw [rest_advance_of_at here]
        exact valid.2
      refine .ite (fun _ => ih ?_) fun _ => ?_
      · exact valid_both valid.1 (advanceWhile_valid blankLine_ascii behind)
      · have escape := appendEscape_valid valid.1 behind
        rcases read : c.advance.appendEscape result with e | ⟨text, d⟩
        · exact .error
        · exact ih (escape text d read)
    · refine .ite (fun ended => ih ?_) fun _ => .ite (fun _ => .fail _) fun _ => ih ?_
      · rw [lineEnd_text ended]
        exact valid
      · rw [rest_advance_of_at here, List.append_assoc, List.singleton_append, ← here]
        exact valid

theorem parseMultiLineString_valid {quote : UInt8} {kind : String} (ascii : quote ≤ 0x7F)
    (three : c.rest.take 3 = List.replicate 3 quote) (valid : isValidUtf8 c.rest = true) :
    Gives (fun text _ => isValidUtf8 text = true) (c.parseMultiLineString quote kind) := by
  have opened : isValidUtf8 (c.skip 3).rest = true := by
    rw [← List.take_append_drop 3 c.rest, three] at valid
    rw [rest_skip]
    refine valid_drop_ascii (fun b mem => ?_) valid
    rw [List.eq_of_mem_replicate mem]
    exact ascii
  refine @multiLineString_valid _ quote kind ascii _ [] ?_
  rw [List.nil_append]
  split
  · rename_i ended
    have same := lineEnd_text ended []
    rw [List.nil_append (c.skip 3).rest] at same
    rw [← same] at opened
    refine valid_drop_ascii (fun b mem => ?_) opened
    split at mem
    · simp only [List.nil_append, List.cons_append, List.mem_cons, List.not_mem_nil, or_false] at mem
      rcases mem with rfl | rfl
      · decide
      · decide
    · rw [List.nil_append, List.mem_singleton] at mem
      rw [mem]
      decide
  · exact opened

/-- A string of any form is valid. -/
theorem parseString_valid (h : c.OfValid) (quote : c.currentChar = ch '"' ∨ c.currentChar = ch '\'') :
    Gives (fun text _ => isValidUtf8 text = true) c.parseString := by
  have ascii : c.currentChar ≤ 0x7F ∧ c.currentChar ≠ 0 := by
    rcases quote with double | single
    · rw [double]
      decide
    · rw [single]
      decide
  obtain ⟨more, here⟩ := rest_of_current rfl ascii.2
  have valid := h.valid here ascii.1
  have behind : isValidUtf8 c.advance.rest = true := advance_valid rfl ascii.1 ascii.2 valid
  unfold parseString
  refine .ite (fun three => ?_) fun _ => .ite (fun _ => ?_) fun _ => ?_
  · rw [Bool.and_eq_true, beq_iff_eq, beq_iff_eq] at three
    exact parseMultiLineString_valid ascii.1 (three_of_peek ascii.2 ⟨⟨rfl, three.1⟩, three.2⟩) valid
  · exact .ite (fun _ => .fail _) fun _ => basicString_valid _ behind
  · exact literalString_valid _ behind

/-! ## Keys -/

theorem bareKey_ascii (c : UInt8) (bare : isBareKeyChar c = true) : c ≤ 0x7F := by
  revert c
  exact everyByte (by decide +kernel)

theorem parseKey_valid (h : c.OfValid) :
    Gives (fun key _ => isValidUtf8 key = true) c.parseKey := by
  have behind {byte : UInt8} (current : c.currentChar = byte) (ascii : byte ≤ 0x7F)
      (nonzero : byte ≠ 0) : isValidUtf8 c.advance.rest = true := by
    obtain ⟨more, here⟩ := rest_of_current current nonzero
    exact advance_valid current ascii nonzero (h.valid here ascii)
  unfold parseKey
  refine .ite (fun double => ?_) fun _ => .ite (fun single => ?_) fun _ => ?_
  · exact .ite (fun _ => .fail _) fun _ => basicString_valid _ (behind double (by decide) (by decide))
  · exact literalString_valid _ (behind single (by decide) (by decide))
  · refine .ite (fun _ => .ok (valid_ascii fun b mem => ?_)) fun _ => .fail _
    exact bareKey_ascii b (List.mem_takeWhile_imp mem)

/-- The parts of a name are all valid. -/
def KeysValid (keyPath : KeyPath) : Prop := ∀ key ∈ keyPath.keys, isValidUtf8 key = true

theorem keysValid_single {key : Text} (valid : isValidUtf8 key = true) : KeysValid ⟨key, []⟩ := by
  intro k mem
  rw [List.mem_singleton.mp mem]
  exact valid

theorem keysValid_cons {key : Text} {more : KeyPath} (valid : isValidUtf8 key = true)
    (others : KeysValid more) : KeysValid ⟨key, more.keys⟩ := by
  intro k mem
  rcases List.mem_cons.mp mem with rfl | mem
  · exact valid
  · exact others k mem

theorem headerKeys_valid (n : Nat) (h : c.OfValid) :
    Gives (fun keyPath _ => KeysValid keyPath) (headerKeys n c) := by
  induction n generalizing c with
  | zero => exact .error
  | succ n ih =>
    have blank := h.past (past_skipWhitespace c)
    unfold headerKeys
    rcases read : c.skipWhitespace.parseKey with e | ⟨key, d⟩
    · exact .error
    have valid := parseKey_valid blank key d read
    have there := blank.past ((parseKey_reads _).past key d read)
    have next := (there.past (past_skipWhitespace d)).past (past_advance _)
    refine .ite (fun _ => ?_) fun _ => .ite (fun _ => .ok (keysValid_single valid)) fun _ => .fail _
    rcases others : headerKeys n d.skipWhitespace.advance with e | ⟨more, f⟩
    · exact .error
    · exact .ok (keysValid_cons valid (ih next more f others))

theorem parseTableHeader_valid (h : c.OfValid) :
    Gives (fun header _ => KeysValid header.1) c.parseTableHeader := by
  unfold parseTableHeader
  refine .ite (fun _ => .fail _) fun _ => ?_
  have opened : (if c.advance.currentChar == ch '[' then c.advance.advance else c.advance).OfValid := by
    split
    · exact (h.past (past_advance c)).past (past_advance _)
    · exact h.past (past_advance c)
  simp only
  generalize (if c.advance.currentChar == ch '[' then c.advance.advance else c.advance) = d at *
  rcases read : headerKeys (d.rest.length + 1) d with e | ⟨keyPath, f⟩
  · exact .error
  have valid := headerKeys_valid _ opened keyPath f read
  exact .ite (fun _ => .ite (fun _ => .fail _) fun _ => .ok valid) fun _ => .ok valid

theorem pairKeys_valid (n : Nat) (h : c.OfValid) :
    Gives (fun keyPath _ => KeysValid keyPath) (pairKeys n c) := by
  induction n generalizing c with
  | zero => exact .error
  | succ n ih =>
    unfold pairKeys
    rcases read : c.parseKey with e | ⟨key, d⟩
    · exact .error
    have valid := parseKey_valid h key d read
    have there := (h.past ((parseKey_reads c).past key d read)).past (past_skipWhitespace d)
    have next := (there.past (past_advance _)).past (past_skipWhitespace _)
    refine .ite (fun _ => .ok (keysValid_single valid)) fun _ => ?_
    rcases others : pairKeys n d.skipWhitespace.advance.skipWhitespace with e | ⟨more, f⟩
    · exact .error
    · exact .ok (keysValid_cons valid (ih next more f others))

theorem parseKeyPath_valid (h : c.OfValid) :
    Gives (fun keyPath _ => KeysValid keyPath) c.parseKeyPath := by
  unfold parseKeyPath
  rcases read : pairKeys (c.rest.length + 1) c with e | ⟨keyPath, d⟩
  · exact .error
  · exact .ite (fun _ => .fail _) fun _ => .ok (pairKeys_valid _ h keyPath d read)

end Cursor

end Dross
