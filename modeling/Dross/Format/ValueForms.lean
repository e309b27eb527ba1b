import Dross.Format.DecimalText
import Dross.Format.KeyForms
import Dross.Format.TimestampForms
import Dross.Format.TomlWritable

/-!
# How a value comes back

Values of any depth are read from what is written for them, arrays and inline tables
among them. Numbers come back as their images, everything else as it was.
-/

namespace Dross

open OrderedMap

namespace Value

mutual

/-- What comes of a value that is written and read. -/
def comesBack : Value → Value
  | .number n => .number n.comesBack
  | .array elements => .array (elementsBack elements)
  | .dictionary d => .dictionary (propertiesBack d)
  | v => v

def elementsBack : List Value → List Value
  | [] => []
  | v :: rest => v.comesBack :: elementsBack rest

def propertiesBack : Dictionary → Dictionary
  | [] => []
  | (key, v) :: rest => (key, v.comesBack) :: propertiesBack rest

end

theorem elementsBack_eq (elements : List Value) :
    elementsBack elements = elements.map comesBack := by
  induction elements with
  | nil => rfl
  | cons v rest ih => rw [elementsBack, ih, List.map_cons]

theorem propertiesBack_eq (d : Dictionary) :
    propertiesBack d = d.map (fun p => (p.1, p.2.comesBack)) := by
  induction d with
  | nil => rfl
  | cons p rest ih => rw [propertiesBack, ih, List.map_cons]

theorem sorted_propertiesBack {d : Dictionary} : Sorted (propertiesBack d) ↔ Sorted d := by
  rw [propertiesBack_eq, Sorted, List.pairwise_map]
  exact Iff.rfl

end Value

namespace TableNode

/-- A key that is in none of the maps of a table is added to its pairs. -/
theorem addPair_plain {node : TableNode} {key : Text} (inTables : contains node.tables key = false)
    (inPairs : contains node.pairs key = false) (val : Value) (pos : Position) :
    node.addPair ⟨key, []⟩ val pos = ({ node with pairs := set node.pairs key val }, .ok ()) := by
  simp [addPair, addPairParts, addKey, addDictionaryKey, inTables, inPairs]

end TableNode

namespace Toml

/-- A byte that what is written for a value starts with. -/
def startsValue (b : UInt8) : Bool :=
  isDigit b || b == ch '-' || b == ch '"' || b == ch 't' || b == ch 'f' || b == ch '[' || b == ch '{'

theorem startsValue_byte (b : UInt8) (starts : startsValue b = true) :
    Cursor.isVisible b = true ∧ b ≠ ch ']' ∧ b ≠ ch '}' := by
  revert b
  exact everyByte (by decide +kernel)

theorem formatIso8601_start (t : Timestamp) :
    ∃ byte tail, t.formatIso8601 = byte :: tail ∧ isDigit byte = true := by
  obtain ⟨-, isDate⟩ := @Cursor.date_ahead (Cursor.start t.formatIso8601) t []
    (List.append_nil _).symm
  rw [Cursor.atDate, Bool.and_eq_true, Cursor.digitsAhead_iff] at isDate
  have first := isDate.1 0 (by decide)
  rcases here : t.formatIso8601 with _ | ⟨byte, tail⟩
  · rw [here] at first
    cases first
  · rw [here] at first
    exact ⟨byte, tail, rfl, first⟩

theorem numberText_start {n : Number} {text : Text} (written : numberText n = .ok text) :
    ∃ byte tail, text = byte :: tail ∧ (isDigit byte = true ∨ byte = ch '-') := by
  have number : n.isNan = false := by
    by_contra nan
    rw [numberText, if_pos (by simpa using nan)] at written
    cases written
  obtain ⟨negative, integer, fraction, digits, -, trimmed, same, -⟩ := Number.numberText_eq number
  rw [same] at written
  obtain rfl := Except.ok.inj written
  obtain ⟨d, ds, rfl⟩ := List.exists_cons_of_ne_nil trimmed.1
  rw [Cursor.joined_eq]
  cases negative with
  | false => exact ⟨d, _, rfl, Or.inl (digits d List.mem_cons_self)⟩
  | true => exact ⟨ch '-', _, rfl, Or.inr rfl⟩

theorem serializeValue_start {v : Value} {text : Text} (written : serializeValue v = .ok text) :
    ∃ byte tail, text = byte :: tail ∧ startsValue byte = true := by
  have digit {byte : UInt8} (h : isDigit byte = true) : startsValue byte = true := by
    simp [startsValue, h]
  cases v with
  | null => cases written
  | data bytes => cases written
  | string s =>
    obtain rfl := Except.ok.inj written
    exact ⟨ch '"', _, rfl, by decide⟩
  | boolean b =>
    obtain rfl := Except.ok.inj written
    cases b with
    | true => exact ⟨ch 't', _, rfl, by decide⟩
    | false => exact ⟨ch 'f', _, rfl, by decide⟩
  | number n =>
    obtain ⟨byte, tail, rfl, starts⟩ := numberText_start written
    refine ⟨byte, tail, rfl, ?_⟩
    rcases starts with h | rfl
    · exact digit h
    · decide
  | timestamp t =>
    obtain rfl := Except.ok.inj written
    obtain ⟨byte, tail, same, h⟩ := formatIso8601_start t
    exact ⟨byte, tail, same, digit h⟩
  | array elements =>
    rw [serializeValue] at written
    cases inside : serializeElements true elements with
    | error e =>
      rw [inside] at written
      cases written
    | ok t =>
      rw [inside] at written
      obtain rfl := Except.ok.inj written
      exact ⟨ch '[', _, rfl, by decide⟩
  | dictionary d =>
    rw [serializeValue] at written
    cases inside : serializeProperties true d with
    | error e =>
      rw [inside] at written
      cases written
    | ok t =>
      rw [inside] at written
      obtain rfl := Except.ok.inj written
      exact ⟨ch '{', _, rfl, by decide⟩

theorem bind_ok {α β : Type} {r : Except Error α} {f : α → Except Error β} {b : β}
    (h : r.bind f = .ok b) : ∃ a, r = .ok a ∧ f a = .ok b := by
  cases r with
  | error e => cases h
  | ok a => exact ⟨a, rfl, h⟩

theorem map_ok {α β : Type} {r : Except Error α} {f : α → β} {b : β} (h : r.map f = .ok b) :
    ∃ a, r = .ok a ∧ f a = b := by
  cases r with
  | error e => cases h
  | ok a => exact ⟨a, rfl, Except.ok.inj h⟩

theorem serializeElements_ok {first : Bool} {v : Value} {rest : List Value} {text : Text}
    (written : serializeElements first (v :: rest) = .ok text) :
    ∃ s more, serializeValue v = .ok s ∧ serializeElements false rest = .ok more ∧
      text = (if first then [] else [ch ',', ch ' ']) ++ (s ++ more) := by
  rw [serializeElements_cons] at written
  obtain ⟨s, valueWritten, others⟩ := bind_ok written
  obtain ⟨more, moreWritten, rfl⟩ := map_ok others
  exact ⟨s, more, valueWritten, moreWritten, List.append_assoc _ _ _⟩

theorem serializeProperties_ok {first : Bool} {key : Text} {v : Value} {rest : Dictionary}
    {text : Text} (written : serializeProperties first ((key, v) :: rest) = .ok text) :
    ∃ s more, serializeValue v = .ok s ∧ serializeProperties false rest = .ok more ∧
      text = (if first then [] else [ch ',', ch ' ']) ++
        (escapeKey key ++ ch ' ' :: ch '=' :: ch ' ' :: (s ++ more)) := by
  rw [serializeProperties_cons] at written
  obtain ⟨s, valueWritten, others⟩ := bind_ok written
  obtain ⟨more, moreWritten, rfl⟩ := map_ok others
  exact ⟨s, more, valueWritten, moreWritten, by simp⟩

end Toml

namespace Cursor

open Toml

variable {c : Cursor} {more : Text}

/-- Wherever it stands, what is written for a value is read as its image. -/
def ReadBack (v : Value) : Prop :=
  ∀ (text more : Text) (c : Cursor) (turns : Nat), serializeValue v = .ok text →
    c.rest = text ++ more → Ended more → 4 * c.rest.length + 1 ≤ turns →
    parseValue turns c = .ok (v.comesBack, c.skip text.length)

theorem skipWhitespaceAndComments_blank {byte : UInt8} (here : c.rest = ch ' ' :: byte :: more)
    (visible : isVisible byte = true) : c.skipWhitespaceAndComments = c.advance := by
  have blank := skipWhitespace_blank here visible
  have current := currentChar_of_at (rest_advance_of_at here)
  simp only [isVisible, Bool.and_eq_true, bne_iff_ne] at visible
  simp [skipWhitespaceAndComments, skipLines, atEnd_of_at here, blank, current, visible]

/-! ## Arrays -/

/-- A comma or the bracket comes after an element. -/
theorem elements_ended {rest : List Value} {tail : Text}
    (written : serializeElements false rest = .ok tail) (more : Text) :
    Ended (tail ++ ch ']' :: more) := by
  cases rest with
  | nil =>
    obtain rfl := Except.ok.inj written
    exact ⟨ch ']', more, rfl, by decide⟩
  | cons v rest =>
    obtain ⟨s, t, -, -, rfl⟩ := serializeElements_ok written
    exact ⟨ch ',', _, rfl, by decide⟩

theorem arrayElements_written {v : Value} {rest : List Value} {text tail : Text} {turns : Nat}
    (all : ∀ w ∈ v :: rest, ReadBack w) (written : serializeValue v = .ok text)
    (tailWritten : serializeElements false rest = .ok tail)
    (here : c.rest = text ++ (tail ++ ch ']' :: more)) (enough : 4 * c.rest.length + 2 ≤ turns)
    (result : List Value) :
    arrayElements turns c result = .ok (result ++ v.comesBack :: rest.map Value.comesBack,
      c.skip (text.length + (tail.length + 1))) := by
  induction rest generalizing v c text tail turns result with
  | nil =>
    obtain rfl := Except.ok.inj tailWritten
    obtain ⟨turns, rfl⟩ := Nat.exists_eq_add_one_of_ne_zero (show turns ≠ 0 by omega)
    have read := all v List.mem_cons_self text _ c turns written here
      (elements_ended tailWritten more) (by omega)
    have after := rest_skip_of_at here
    have stop := skipWhitespaceAndComments_stop after (by decide)
    rw [arrayElements, read]
    simp only [stop, currentChar_of_at after]
    simp [show ch ']' ≠ ch ',' by decide]
  | cons w rest ih =>
    obtain ⟨turns, rfl⟩ := Nat.exists_eq_add_one_of_ne_zero (show turns ≠ 0 by omega)
    obtain ⟨s, tail', valueWritten, restWritten, rfl⟩ := serializeElements_ok tailWritten
    have read := all v List.mem_cons_self text _ c turns written here
      (elements_ended tailWritten more) (by omega)
    obtain ⟨byte, t, rfl, starts⟩ := serializeValue_start valueWritten
    obtain ⟨visible, bracket, -⟩ := startsValue_byte byte starts
    have after : (c.skip text.length).rest =
        ch ',' :: ch ' ' :: byte :: (t ++ (tail' ++ ch ']' :: more)) := by
      rw [rest_skip_of_at here]
      simp
    have stop := skipWhitespaceAndComments_stop after (by decide)
    have blank := rest_advance_of_at after
    have next := skipWhitespaceAndComments_blank blank visible
    have atNext := rest_advance_of_at blank
    have fewer : ((c.skip text.length).advance.advance).rest.length + 2 ≤ c.rest.length := by
      rw [atNext, here]
      simp
    have others := @ih (c.skip text.length).advance.advance w (byte :: t) tail' turns
      (fun u mem => all u (List.mem_cons_of_mem _ mem)) valueWritten restWritten
      (by rw [atNext]; rfl) (by omega) (result ++ [v.comesBack])
    rw [arrayElements, read]
    simp only [stop, currentChar_of_at after, if_true, next, currentChar_of_at atNext,
      if_neg bracket, others]
    simp only [skip_advance, skip_skip]
    congr 2
    · simp
    · simp
      congr 1
      omega

/-! ## Inline tables -/

theorem properties_ended {rest : Dictionary} {tail : Text}
    (written : serializeProperties false rest = .ok tail) (more : Text) :
    Ended (tail ++ ch '}' :: more) := by
  cases rest with
  | nil =>
    obtain rfl := Except.ok.inj written
    exact ⟨ch '}', more, rfl, by decide⟩
  | cons p rest =>
    obtain ⟨s, t, -, -, rfl⟩ := serializeProperties_ok written
    exact ⟨ch ',', _, rfl, by decide⟩

theorem parseKeyValue_written {key text : Text} {v : Value} {turns : Nat} (read : ReadBack v)
    (written : serializeValue v = .ok text)
    (here : c.rest = escapeKey key ++ ch ' ' :: ch '=' :: ch ' ' :: (text ++ more))
    (ended : Ended more) (enough : 4 * c.rest.length + 1 ≤ turns) :
    parseKeyValue turns c =
      .ok ((⟨key, []⟩, v.comesBack), c.skip ((escapeKey key).length + 3 + text.length)) := by
  obtain ⟨turns, rfl⟩ := Nat.exists_eq_add_one_of_ne_zero (show turns ≠ 0 by omega)
  obtain ⟨byte, t, rfl, starts⟩ := serializeValue_start written
  have keyPath := parseKeyPath_escapeKey here (startsValue_byte byte starts).1
  have after : (c.skip ((escapeKey key).length + 3)).rest = byte :: t ++ more := by
    rw [← skip_skip, rest_skip, rest_skip_of_at here]
    rfl
  have value := read (byte :: t) more _ turns written after ended (by
    rw [rest_skip, List.length_drop]
    have long : (escapeKey key).length + 3 ≤ c.rest.length := by
      rw [here]
      simp
    omega)
  rw [parseKeyValue, keyPath]
  simp only [value, Except.map, skip_skip]

/-- What follows a pair, which no blank precedes. -/
theorem behind_pair {key text : Text} {byte : UInt8} {tail : Text}
    (here : c.rest = escapeKey key ++ ch ' ' :: ch '=' :: ch ' ' :: (text ++ byte :: tail))
    (visible : isVisible byte = true) :
    (c.skip ((escapeKey key).length + 3 + text.length)).rest = byte :: tail ∧
      (c.skip ((escapeKey key).length + 3 + text.length)).skipWhitespace =
        c.skip ((escapeKey key).length + 3 + text.length) := by
  have after : (c.skip ((escapeKey key).length + 3 + text.length)).rest = byte :: tail := by
    rw [← skip_skip, ← skip_skip, rest_skip, rest_skip, rest_skip_of_at here]
    simp
  refine ⟨after, skipWhitespace_stop ?_⟩
  rw [currentChar_of_at after]
  exact visible

/-- The table that the pairs of an inline table are added to. -/
def gathered (pairs : Dictionary) : TableNode := { TableNode.fresh with pairs := pairs }

theorem addPair_gathered {pairs : Dictionary} {key : Text} (above : ∀ p ∈ pairs, p.1 < key)
    (val : Value) (pos : Position) :
    (gathered pairs).addPair ⟨key, []⟩ val pos = (gathered (pairs ++ [(key, val)]), .ok ()) := by
  have added := @TableNode.addPair_plain (gathered pairs) key rfl (contains_of_above above) val pos
  rw [added, gathered, gathered, set_of_above above]

theorem inlinePairs_written {key text tail : Text} {v : Value} {rest pairs : Dictionary}
    {turns : Nat} (all : ∀ p ∈ (key, v) :: rest, ReadBack p.2)
    (written : serializeValue v = .ok text) (tailWritten : serializeProperties false rest = .ok tail)
    (here : c.rest = escapeKey key ++ ch ' ' :: ch '=' :: ch ' ' :: (text ++ (tail ++ ch '}' :: more)))
    (enough : 4 * c.rest.length + 2 ≤ turns)
    (sorted : Sorted (pairs ++ (key, v.comesBack) :: Value.propertiesBack rest)) :
    inlinePairs turns c (gathered pairs) =
      .ok (gathered (pairs ++ (key, v.comesBack) :: Value.propertiesBack rest),
        c.skip ((escapeKey key).length + 3 + text.length + (tail.length + 1))) := by
  induction rest generalizing key v c text tail turns pairs with
  | nil =>
    obtain rfl := Except.ok.inj tailWritten
    obtain ⟨turns, rfl⟩ := Nat.exists_eq_add_one_of_ne_zero (show turns ≠ 0 by omega)
    have read := @parseKeyValue_written c _ key text v turns (all _ List.mem_cons_self) written here
      (properties_ended tailWritten more) (by omega)
    have above : ∀ p ∈ pairs, p.1 < key := fun p mem =>
      (List.pairwise_append.mp sorted).2.2 p mem (key, v.comesBack) (by simp)
    obtain ⟨after, stop⟩ := @behind_pair c key text (ch '}') more here (by decide)
    rw [inlinePairs, read]
    simp only [addPair_gathered above, stop, currentChar_of_at after]
    simp [Value.propertiesBack, show ch '}' ≠ ch '\n' ∧ ch '}' ≠ ch '#' ∧ ch '}' ≠ ch ',' by decide]
  | cons p rest ih =>
    obtain ⟨next, w⟩ := p
    obtain ⟨turns, rfl⟩ := Nat.exists_eq_add_one_of_ne_zero (show turns ≠ 0 by omega)
    obtain ⟨s, tail', valueWritten, restWritten, rfl⟩ := serializeProperties_ok tailWritten
    have read := @parseKeyValue_written c _ key text v turns (all _ List.mem_cons_self) written here
      (properties_ended tailWritten more) (by omega)
    have above : ∀ p ∈ pairs, p.1 < key := fun p mem =>
      (List.pairwise_append.mp sorted).2.2 p mem (key, v.comesBack) (by simp)
    obtain ⟨byte, t, keyText, visible, -⟩ := escapeKey_start next
    simp only [List.cons_append, List.append_assoc] at here
    obtain ⟨after, stop⟩ := behind_pair here (by decide)
    have behind := rest_advance_of_at after
    have blank := skipWhitespace_blank (by rw [behind, keyText]; rfl) visible
    have atNext := rest_advance_of_at behind
    have fewer : ((c.skip ((escapeKey key).length + 3 + text.length)).advance.advance).rest.length + 2 ≤
        c.rest.length := by
      rw [atNext, here]
      simp
      omega
    have others := @ih (c.skip ((escapeKey key).length + 3 + text.length)).advance.advance next s
      tail' w (pairs ++ [(key, v.comesBack)]) turns (fun p mem => all p (List.mem_cons_of_mem _ mem))
      valueWritten restWritten atNext (by omega) (by
        rw [List.append_assoc]
        exact sorted)
    rw [inlinePairs, read]
    simp only [addPair_gathered above, stop, currentChar_of_at after, blank, others]
    simp only [skip_advance, skip_skip]
    rw [if_neg (by decide), if_pos trivial]
    congr 2
    · simp [Value.propertiesBack]
    · simp
      congr 1
      omega

/-! ## Every value -/

theorem parseValue_bracket {turns : Nat} (here : c.rest = ch '[' :: more) :
    parseValue (turns + 1) c = parseArray turns c := by
  have current := currentChar_of_at here
  have start : c.skipWhitespace = c := skipWhitespace_stop (by rw [current]; decide)
  have word : c.atInfOrNan = false := not_infOrNan here (by decide) (by decide)
  rw [parseValue, start]
  simp [word, current, show ch '[' ≠ ch '"' ∧ ch '[' ≠ ch '\'' by decide]

theorem parseValue_brace {turns : Nat} (here : c.rest = ch '{' :: more) :
    parseValue (turns + 1) c = parseInlineTable turns c := by
  have current := currentChar_of_at here
  have start : c.skipWhitespace = c := skipWhitespace_stop (by rw [current]; decide)
  have word : c.atInfOrNan = false := not_infOrNan here (by decide) (by decide)
  rw [parseValue, start]
  simp [word, current, show ch '{' ≠ ch '"' ∧ ch '{' ≠ ch '\'' ∧ ch '{' ≠ ch '[' by decide]

theorem parseBoolean_written (b : Bool)
    (here : c.rest = (if b then "true" else "false").toList.map ch ++ more) :
    c.parseBoolean =
      .ok (.boolean b, c.skip ((if b then "true" else "false").toList.map ch).length) := by
  obtain ⟨rest, line, column⟩ := c
  cases b with
  | true =>
    obtain rfl : rest = _ := here
    rfl
  | false =>
    obtain rfl : rest = _ := here
    rfl

theorem parseValue_boolean {turns : Nat} (b : Bool)
    (here : c.rest = (if b then "true" else "false").toList.map ch ++ more) :
    parseValue (turns + 1) c =
      .ok (.boolean b, c.skip ((if b then "true" else "false").toList.map ch).length) := by
  have opening : ∃ byte tail, c.rest = byte :: tail ∧ (byte = ch 't' ∨ byte = ch 'f') := by
    cases b with
    | true => exact ⟨ch 't', _, here, Or.inl rfl⟩
    | false => exact ⟨ch 'f', _, here, Or.inr rfl⟩
  obtain ⟨byte, tail, opening, letter⟩ := opening
  have others : isVisible byte = true ∧ byte ≠ ch '"' ∧ byte ≠ ch '\'' ∧ byte ≠ ch '[' ∧
      byte ≠ ch '{' ∧ (byte ≠ ch '+' ∧ byte ≠ ch '-') ∧ byte ≠ ch 'i' ∧ byte ≠ ch 'n' := by
    rcases letter with rfl | rfl
    · decide
    · decide
  obtain ⟨visible, double, single, bracket, brace, sign, word⟩ := others
  have current := currentChar_of_at opening
  have start : c.skipWhitespace = c := skipWhitespace_stop (by rwa [current])
  rw [parseValue, start, ← parseBoolean_written b here]
  simp [not_infOrNan opening sign word, current, double, single, bracket, brace, letter]

theorem readBack_array {elements : List Value} (all : ∀ v ∈ elements, ReadBack v) :
    ReadBack (.array elements) := by
  intro text more c turns written here ended enough
  rw [serializeValue] at written
  obtain ⟨inside, elementsWritten, rfl⟩ := map_ok written
  obtain ⟨turns, rfl⟩ := Nat.exists_eq_add_one_of_ne_zero (show turns ≠ 0 by omega)
  have opening : c.rest = ch '[' :: (inside ++ ch ']' :: more) := by
    rw [here]
    simp
  have after := rest_advance_of_at opening
  have long : c.rest.length = c.advance.rest.length + 1 := by rw [opening, after]; rfl
  obtain ⟨turns, rfl⟩ := Nat.exists_eq_add_one_of_ne_zero (show turns ≠ 0 by omega)
  rw [parseValue_bracket opening, parseArray, currentChar_of_at opening]
  simp only [bne_self_eq_false, Bool.false_eq_true, if_false]
  cases elements with
  | nil =>
    obtain rfl := Except.ok.inj elementsWritten
    have stop := skipWhitespaceAndComments_stop after (by decide)
    rw [stop, currentChar_of_at after, if_pos rfl]
    rfl
  | cons v rest =>
    obtain ⟨s, tail, valueWritten, restWritten, rfl⟩ := serializeElements_ok elementsWritten
    obtain ⟨byte, t, rfl, starts⟩ := serializeValue_start valueWritten
    obtain ⟨visible, bracket, -⟩ := startsValue_byte byte starts
    have inner : c.advance.rest = byte :: t ++ (tail ++ ch ']' :: more) := by
      rw [after]
      simp
    have stop := skipWhitespaceAndComments_stop inner visible
    have read := @arrayElements_written c.advance more v rest (byte :: t) tail turns all valueWritten
      restWritten inner (by omega) []
    rw [stop, currentChar_of_at inner, if_neg bracket, read]
    simp only [Except.map, List.nil_append, Value.comesBack, Value.elementsBack,
      Value.elementsBack_eq, advance_skip]
    congr 2
    simp
    congr 1
    omega

theorem readBack_dictionary {d : Dictionary} (sorted : Sorted d) (all : ∀ p ∈ d, ReadBack p.2) :
    ReadBack (.dictionary d) := by
  intro text more c turns written here ended enough
  rw [serializeValue] at written
  obtain ⟨inside, propertiesWritten, rfl⟩ := map_ok written
  obtain ⟨turns, rfl⟩ := Nat.exists_eq_add_one_of_ne_zero (show turns ≠ 0 by omega)
  have opening : c.rest = ch '{' :: (inside ++ ch '}' :: more) := by
    rw [here]
    simp
  have after := rest_advance_of_at opening
  have long : c.rest.length = c.advance.rest.length + 1 := by rw [opening, after]; rfl
  obtain ⟨turns, rfl⟩ := Nat.exists_eq_add_one_of_ne_zero (show turns ≠ 0 by omega)
  rw [parseValue_brace opening, parseInlineTable, currentChar_of_at opening]
  simp only [bne_self_eq_false, Bool.false_eq_true, if_false]
  cases d with
  | nil =>
    obtain rfl := Except.ok.inj propertiesWritten
    have stop : c.advance.skipWhitespace = c.advance := by
      apply skipWhitespace_stop
      rw [currentChar_of_at after]
      decide
    rw [stop, currentChar_of_at after, if_pos rfl]
    rfl
  | cons p rest =>
    obtain ⟨key, v⟩ := p
    obtain ⟨s, tail, valueWritten, restWritten, rfl⟩ := serializeProperties_ok propertiesWritten
    obtain ⟨byte, t, keyText, visible, -, brace⟩ := escapeKey_start key
    have inner : c.advance.rest = escapeKey key ++ ch ' ' :: ch '=' :: ch ' ' ::
        (s ++ (tail ++ ch '}' :: more)) := by
      rw [after]
      simp
    have first : c.advance.currentChar = byte := currentChar_of_at (by rw [inner, keyText]; rfl)
    have stop : c.advance.skipWhitespace = c.advance := by
      apply skipWhitespace_stop
      rwa [first]
    have read := @inlinePairs_written c.advance more key s tail v rest [] turns all valueWritten
      restWritten inner (by omega) (Value.sorted_propertiesBack.mpr sorted)
    rw [show gathered [] = TableNode.fresh from rfl] at read
    rw [stop, first, if_neg brace, read]
    simp only [Except.map, List.nil_append, advance_skip]
    congr 2
    simp
    congr 1
    omega

/-- What is written for a value is read as its image. -/
theorem readBack {v : Value} (ordered : v.Ordered) : ReadBack v := by
  induction v using Value.induction with
  | null => exact fun _ _ _ _ written => by cases written
  | data bytes => exact fun _ _ _ _ written => by cases written
  | boolean b =>
    intro text more c turns written here ended enough
    obtain ⟨turns, rfl⟩ := Nat.exists_eq_add_one_of_ne_zero (show turns ≠ 0 by omega)
    obtain rfl := Except.ok.inj written
    exact parseValue_boolean b here
  | number n =>
    intro text more c turns written here ended enough
    obtain ⟨turns, rfl⟩ := Nat.exists_eq_add_one_of_ne_zero (show turns ≠ 0 by omega)
    exact parseValue_numberText turns written here ended
  | string s =>
    intro text more c turns written here ended enough
    obtain ⟨turns, rfl⟩ := Nat.exists_eq_add_one_of_ne_zero (show turns ≠ 0 by omega)
    obtain rfl := Except.ok.inj written
    obtain ⟨stop, tail, rfl, ends⟩ := ended
    refine (quoted_reads s turns c (stop :: tail) here ?_).1
    intro quote
    obtain rfl := Option.some.inj quote
    cases ends
  | timestamp t =>
    intro text more c turns written here ended enough
    obtain ⟨turns, rfl⟩ := Nat.exists_eq_add_one_of_ne_zero (show turns ≠ 0 by omega)
    obtain rfl := Except.ok.inj written
    exact parseValue_formatIso8601 turns here
  | array elements ih =>
    have inside := Value.orderedElements_iff.mp ordered
    exact readBack_array fun v mem => ih v mem (inside v mem)
  | dictionary d ih =>
    obtain ⟨sorted, properties⟩ := ordered
    have inside := Value.orderedProperties_iff.mp properties
    exact readBack_dictionary sorted fun p mem => ih p mem (inside p mem)

end Cursor

end Dross
