import Dross.Format.Positions

/-!
# Where errors are reported

Reader by reader, down to the whole input: an error has the line and column of a state
the parser reached, the one it stopped at or one saved before the statement, pair or
datetime was read.
-/

namespace Dross

/-! ## Errors of the tree -/

namespace TableNode

open OrderedMap

variable {table : TableNode} {pos : Position} {e : Error}

theorem addDictionaryKey_failed {d : Dictionary} {key : Text} {val : Value}
    (h : addDictionaryKey d key val pos = .error e) : ∃ message, e = createError message pos := by
  unfold addDictionaryKey at h
  split at h
  · cases h
    exact ⟨_, rfl⟩
  · cases h

theorem addKey_failed {key : Text} {val : Value} (h : (table.addKey key val pos).2 = .error e) :
    ∃ message, e = createError message pos := by
  unfold addKey at h
  split at h
  · cases h
    exact ⟨_, rfl⟩
  · split at h
    · rename_i added
      cases h
      exact addDictionaryKey_failed added
    · cases h

theorem addPairParts_failed {key : Text} {rest : List Text} {val : Value}
    (h : (table.addPairParts key rest val pos).2 = .error e) :
    ∃ message, e = createError message pos := by
  induction rest generalizing table key with
  | nil => exact addKey_failed h
  | cons next rest ih =>
    unfold addPairParts at h
    split at h
    · cases h
      exact ⟨_, rfl⟩
    · split at h
      · exact ih h
      · split at h
        · exact ih h
        · cases h
          exact ⟨_, rfl⟩

theorem addPair_failed {keyPath : KeyPath} {val : Value}
    (h : (table.addPair keyPath val pos).2 = .error e) : ∃ message, e = createError message pos :=
  addPairParts_failed h

theorem nameTable_failed {array : Bool} (h : (table.nameTable array pos).2 = .error e) :
    ∃ message, e = createError message pos := by
  unfold nameTable at h
  split at h
  · split at h
    · cases h
      exact ⟨_, rfl⟩
    · cases h
  · split at h
    · cases h
      exact ⟨_, rfl⟩
    · cases h

theorem map_failed {α β : Type} {r : Except Error α} {f : α → β} (h : r.map f = .error e) :
    r = .error e := by
  cases r with
  | error e' =>
    cases h
    rfl
  | ok a => cases h

theorem openTableParts_failed {key : Text} {rest : List Text} {array : Bool}
    (h : (table.openTableParts key rest array pos).2 = .error e) :
    ∃ message, e = createError message pos := by
  induction rest generalizing table key with
  | nil =>
    unfold openTableParts at h
    split at h
    · cases h
      exact ⟨_, rfl⟩
    · exact nameTable_failed (map_failed h)
  | cons next rest ih =>
    unfold openTableParts at h
    split at h
    · cases h
      exact ⟨_, rfl⟩
    · simp only at h
      split at h
      · exact ih (map_failed h)
      · exact ih (map_failed h)

end TableNode

/-- A statement that cannot be defined is an error at its start. -/
theorem Document.define_failed {doc : Document} {s : Statement} {pos : Position} {e : Error}
    (h : (doc.define s pos).2 = .error e) : ∃ message, e = createError message pos := by
  cases s with
  | pair keyPath val => exact TableNode.addPair_failed h
  | header keyPath array =>
    unfold define at h
    simp only at h
    split at h
    · rename_i opened
      cases h
      exact TableNode.openTableParts_failed (congrArg Prod.snd opened)
    · cases h

namespace Cursor

variable {c d : Cursor}

/-! ## Strings and keys -/

theorem appendEscape_places (c : Cursor) (result : Text) : c.Places (c.appendEscape result) := by
  have here (t : Text) : c.Places (.ok (t, c) : Reading Text) := .ok .refl
  unfold appendEscape
  refine .ite (fun _ => here _) fun _ => ?_
  refine .ite (fun _ => here _) fun _ => ?_
  refine .ite (fun _ => here _) fun _ => ?_
  refine .ite (fun _ => here _) fun _ => ?_
  refine .ite (fun _ => here _) fun _ => ?_
  refine .ite (fun _ => here _) fun _ => ?_
  refine .ite (fun _ => here _) fun _ => ?_
  refine .ite (fun _ => ?_) fun _ => .fail _
  refine .ite (fun _ => .fail _) fun _ => ?_
  exact .ite (fun _ => .fail _) fun _ => .ok (leads_skip c _)

theorem basicString_places (kind : String) (n : Nat) (c : Cursor) (result : Text) :
    c.Places (basicString kind n c result) := by
  induction n generalizing c result with
  | zero => exact .outOfTurns
  | succ n ih =>
    have taken := leads_advance c
    unfold basicString
    refine .ite (fun _ => ?_) fun _ => .ite (fun _ => .fail _) fun _ => .ok taken
    refine .ite (fun _ => taken.read ?_) fun _ => ?_
    · refine .ite (fun _ => .fail _) fun _ => ?_
      rcases (appendEscape_places c.advance result).cases with ⟨e, stop, stops⟩ | ⟨text, d, go, leads⟩
      · rw [stop]
        exact stops
      · rw [go]
        exact (leads.trans (leads_advance d)).read (ih _ _)
    · exact .ite (fun _ => .fail _) fun _ => taken.read (ih _ _)

theorem parseBasicString_places (c : Cursor) (kind : String) :
    c.Places (c.parseBasicString kind) := by
  unfold parseBasicString
  exact .ite (fun _ => .fail _) fun _ => (leads_advance c).read (basicString_places ..)

theorem literalString_places (kind : String) (n : Nat) (c : Cursor) (result : Text) :
    c.Places (literalString kind n c result) := by
  induction n generalizing c result with
  | zero => exact .outOfTurns
  | succ n ih =>
    have taken := leads_advance c
    unfold literalString
    refine .ite (fun _ => ?_) fun _ => .ite (fun _ => .fail _) fun _ => .ok taken
    exact .ite (fun _ => .fail _) fun _ => taken.read (ih _ _)

theorem parseLiteralString_places (c : Cursor) (kind : String) :
    c.Places (c.parseLiteralString kind) :=
  (leads_advance c).read (literalString_places ..)

theorem multiLineString_places (quote : UInt8) (kind : String) (n : Nat) (c : Cursor)
    (result : Text) : c.Places (multiLineString quote kind n c result) := by
  induction n generalizing c result with
  | zero => exact .outOfTurns
  | succ n ih =>
    have taken := leads_advance c
    unfold multiLineString
    refine .ite (fun _ => .fail _) fun _ => ?_
    refine .ite (fun _ => .ok (leads_skip c _)) fun _ => ?_
    refine .ite (fun _ => ?_) fun _ => ?_
    · refine .ite (fun _ => (taken.trans (leads_advanceWhile _ _)).read (ih _ _)) fun _ => ?_
      rcases (taken.read (appendEscape_places c.advance result)).cases with
        ⟨e, stop, stops⟩ | ⟨text, d, go, leads⟩
      · rw [stop]
        exact stops
      · rw [go]
        exact (leads.trans (leads_advance d)).read (ih _ _)
    · refine .ite (fun _ => (skips_skipLineEnd c).leads.read (ih _ _)) fun _ => ?_
      exact .ite (fun _ => .fail _) fun _ => taken.read (ih _ _)

theorem parseMultiLineString_places (c : Cursor) (quote : UInt8) (kind : String) :
    c.Places (c.parseMultiLineString quote kind) := by
  have opened : c.Leads (if (c.skip 3).atLineEnd 0 then (c.skip 3).skipLineEnd else c.skip 3) := by
    split
    · exact (leads_skip c 3).trans (skips_skipLineEnd _).leads
    · exact leads_skip c 3
  exact opened.read (multiLineString_places ..)

theorem parseString_places (c : Cursor) : c.Places c.parseString := by
  unfold parseString
  refine .ite (fun _ => parseMultiLineString_places c _ _) fun _ => ?_
  exact .ite (fun _ => parseBasicString_places c _) fun _ => parseLiteralString_places c _

theorem parseKey_places (c : Cursor) : c.Places c.parseKey := by
  unfold parseKey
  refine .ite (fun _ => parseBasicString_places c _) fun _ => ?_
  refine .ite (fun _ => parseLiteralString_places c _) fun _ => ?_
  exact .ite (fun _ => .ok (leads_skip c _)) fun _ => .fail _

theorem headerKeys_places (n : Nat) (c : Cursor) : c.Places (headerKeys n c) := by
  induction n generalizing c with
  | zero => exact .outOfTurns
  | succ n ih =>
    unfold headerKeys
    rcases ((leads_skipWhitespace c).read (parseKey_places _)).cases with
      ⟨e, stop, stops⟩ | ⟨key, d, go, leads⟩
    · rw [stop]
      exact stops
    rw [go]
    have there := leads.trans (leads_skipWhitespace d)
    have taken := there.trans (leads_advance _)
    refine .ite (fun _ => ?_) fun _ => .ite (fun _ => .ok taken) fun _ => there.read (.fail _)
    rcases (taken.read (ih _)).cases with ⟨e, stop, stops⟩ | ⟨more, f, go, leads⟩
    · rw [stop]
      exact stops
    · rw [go]
      exact .ok leads

theorem parseTableHeader_places (c : Cursor) : c.Places c.parseTableHeader := by
  have opened : c.Leads (if c.advance.currentChar == ch '[' then c.advance.advance
      else c.advance) := by
    split
    · exact (leads_advance c).trans (leads_advance _)
    · exact leads_advance c
  unfold parseTableHeader
  refine .ite (fun _ => .fail _) fun _ => ?_
  simp only
  rcases (opened.read (headerKeys_places _ _)).cases with
    ⟨e, stop, stops⟩ | ⟨keyPath, d, go, leads⟩
  · rw [stop]
    exact stops
  · rw [go]
    refine .ite (fun _ => ?_) fun _ => .ok leads
    exact .ite (fun _ => leads.read (.fail _)) fun _ => .ok (leads.trans (leads_advance d))

theorem pairKeys_places (n : Nat) (c : Cursor) : c.Places (pairKeys n c) := by
  induction n generalizing c with
  | zero => exact .outOfTurns
  | succ n ih =>
    unfold pairKeys
    rcases (parseKey_places c).cases with ⟨e, stop, stops⟩ | ⟨key, d, go, leads⟩
    · rw [stop]
      exact stops
    rw [go]
    have there := leads.trans (leads_skipWhitespace d)
    refine .ite (fun _ => .ok there) fun _ => ?_
    have next := (there.trans (leads_advance _)).trans (leads_skipWhitespace _)
    rcases (next.read (ih _)).cases with ⟨e, stop, stops⟩ | ⟨more, f, go, leads⟩
    · rw [stop]
      exact stops
    · rw [go]
      exact .ok leads

theorem parseKeyPath_places (c : Cursor) : c.Places c.parseKeyPath := by
  unfold parseKeyPath
  rcases (pairKeys_places (c.rest.length + 1) c).cases with
    ⟨e, stop, stops⟩ | ⟨keyPath, d, go, leads⟩
  · rw [stop]
    exact stops
  · rw [go]
    refine .ite (fun _ => leads.read (.fail _)) fun _ => .ok ?_
    exact (leads.trans (leads_advance d)).trans (leads_skipWhitespace _)

/-! ## Booleans and datetimes -/

theorem parseBoolean_places (c : Cursor) : c.Places c.parseBoolean := by
  constructor
  · exact fun a d read => Relation.ReflTransGen.single (.boolean read)
  · intro e stop
    unfold parseBoolean at stop
    split at stop
    · cases stop
    · split at stop
      · cases stop
      · exact (Places.fail (α := Value) "Invalid boolean value").failed e stop

theorem finishDatetime_places {s : Cursor × Text} (h : c.Leads s.1) :
    c.Places (finishDatetime c.position s) := by
  unfold finishDatetime
  split
  · exact .failedAt .refl
  · exact .ok h

/-- Whatever is wrong with a datetime, the error is at its start. -/
theorem parseDatetime_places (c : Cursor) : c.Places c.parseDatetime := by
  unfold parseDatetime
  simp only
  refine .ite (fun _ => .failedAt .refl) fun _ => ?_
  rcases date : takeDate (c, []) with _ | ⟨d, text⟩
  · exact .failedAt .refl
  refine .ite (fun _ => ?_) fun _ => .failedAt .refl
  rcases time : takeTime (d.advance, text ++ [ch 'T']) with _ | s
  · exact .failedAt .refl
  have there : c.Leads (takeFraction s).1 := (((takeDate_skips date).trans (skips_advance d)).trans
    ((takeTime_skips time).trans (takeFraction_skips s))).leads
  refine .ite (fun _ => finishDatetime_places (there.trans (leads_advance _))) fun _ => ?_
  refine .ite (fun _ => ?_) fun _ => .failedAt .refl
  rcases offset : takeOffset (takeFraction s) with _ | t
  · exact .failedAt .refl
  · exact finishDatetime_places (there.trans (takeOffset_skips offset).leads)

/-! ## Numbers -/

theorem readDigits_places (base n : Nat) (c : Cursor) (text : Text) (count : Nat) :
    c.Places (readDigits base n c text count) := by
  induction n generalizing c text count with
  | zero => exact .outOfTurns
  | succ n ih =>
    have under : c.Leads (if c.currentChar = ch '_' then c.advance else c) := by
      split
      · exact leads_advance c
      · exact .refl
    unfold readDigits
    refine .ite (fun _ => .fail _) fun _ => ?_
    simp only
    generalize (if c.currentChar = ch '_' then c.advance else c) = d at under ⊢
    exact .ite (fun _ => .ok under) fun _ => (under.trans (leads_advance d)).read (ih ..)

theorem digitsOf_places (c : Cursor) (base : Nat) (text : Text) : c.Places (c.digitsOf base text) :=
  readDigits_places ..

/-- The sum over the chunks reports nothing. -/
theorem sumChunks_stops (base bits chunk n : Nat) (digits : Text) (result : Number) (e : Error) :
    sumChunks base bits chunk n digits result ≠ .error (.failed e) := by
  induction n generalizing digits result with
  | zero =>
    intro stop
    cases stop
  | succ n ih =>
    unfold sumChunks
    split
    · intro stop
      cases stop
    · simp only
      split
      · intro stop
        cases stop
      · exact ih _ _

theorem parsePrefixedInteger_places (c : Cursor) : c.Places c.parsePrefixedInteger := by
  unfold parsePrefixedInteger
  simp only
  generalize (if c.peekChar 1 = ch 'x' then 16 else if c.peekChar 1 = ch 'o' then 8 else 2) = base
  rcases ((leads_skip c 2).read (digitsOf_places _ base [])).cases with
    ⟨e, stop, stops⟩ | ⟨⟨digits, count⟩, d, go, leads⟩
  · rw [stop]
    exact stops
  rw [go]
  simp only
  refine .ite (fun _ => leads.read (.fail _)) fun _ => ?_
  have ends := sumChunks_stops base (if base = 16 then 4 else if base = 8 then 3 else 1)
    (63 / (if base = 16 then 4 else if base = 8 then 3 else 1)) (digits.length + 1) digits
    (Number.ofUnsigned 0)
  generalize sumChunks _ _ _ _ _ _ = sum at ends ⊢
  rcases sum with (e | _) | result
  · exact absurd rfl (ends e)
  · exact .outOfTurns
  · exact .ok leads

theorem readFraction_places (c : Cursor) (text : Text) : c.Places (c.readFraction text) := by
  unfold readFraction
  refine .ite (fun _ => ?_) fun _ => .ok .refl
  rcases ((leads_advance c).read (digitsOf_places _ 10 (text ++ [ch '.']))).cases with
    ⟨e, stop, stops⟩ | ⟨⟨digits, count⟩, d, go, leads⟩
  · rw [stop]
    exact stops
  · rw [go]
    exact .ite (fun _ => leads.read (.fail _)) fun _ => .ok leads

theorem readExponent_places (c : Cursor) (text : Text) : c.Places (c.readExponent text) := by
  unfold readExponent
  refine .ite (fun _ => ?_) fun _ => .ok .refl
  have signed := (leads_advance c).trans (takeSign_skips c.advance (text ++ [c.currentChar])).leads
  simp only
  rcases (signed.read (digitsOf_places _ 10 _)).cases with
    ⟨e, stop, stops⟩ | ⟨⟨digits, count⟩, d, go, leads⟩
  · rw [stop]
    exact stops
  · rw [go]
    exact .ite (fun _ => leads.read (.fail _)) fun _ => .ok leads

theorem parseNumber_places (c : Cursor) : c.Places c.parseNumber := by
  have unsigned := (takeSign_skips c []).leads
  unfold parseNumber
  refine .ite (fun _ => parsePrefixedInteger_places c) fun _ => ?_
  simp only
  refine .ite (fun _ => unsigned.read (.fail _)) fun _ => ?_
  rcases (unsigned.read (digitsOf_places _ 10 _)).cases with
    ⟨e, stop, stops⟩ | ⟨⟨text, count⟩, d, go, leads⟩
  · rw [stop]
    exact stops
  rw [go]
  simp only
  refine .ite (fun _ => leads.read (.fail _)) fun _ => ?_
  refine .ite (fun _ => leads.read (.fail _)) fun _ => ?_
  rcases (leads.read (readFraction_places d text)).cases with
    ⟨e, stop, stops⟩ | ⟨text, f, go, leads⟩
  · rw [stop]
    exact stops
  rw [go]
  simp only
  rcases (leads.read (readExponent_places f text)).cases with
    ⟨e, stop, stops⟩ | ⟨text, g, go, leads⟩
  · rw [stop]
    exact stops
  rw [go]
  exact .ite (fun _ => leads.read (.fail _)) fun _ => .ok leads

/-! ## Values -/

/-- What the calls of the parser of values do with so many turns. -/
structure PlacesValues (turns : Nat) : Prop where
  value : ∀ c : Cursor, c.Places (parseValue turns c)
  array : ∀ c : Cursor, c.Places (parseArray turns c)
  elements : ∀ (c : Cursor) result, c.Places (arrayElements turns c result)
  inlineTable : ∀ c : Cursor, c.Places (parseInlineTable turns c)
  pairs : ∀ (c : Cursor) result, c.Places (inlinePairs turns c result)
  keyValue : ∀ c : Cursor, c.Places (parseKeyValue turns c)

namespace PlacesValues

variable {turns : Nat}

theorem parseValue_places (h : PlacesValues turns) : c.Places (parseValue (turns + 1) c) := by
  unfold parseValue
  simp only
  refine (leads_skipWhitespace c).read ?_
  refine .ite (fun _ => .fail _) fun _ => ?_
  refine .ite (fun _ => (parseString_places _).map Value.string) fun _ => ?_
  refine .ite (fun _ => h.array _) fun _ => ?_
  refine .ite (fun _ => h.inlineTable _) fun _ => ?_
  refine .ite (fun _ => parseBoolean_places _) fun _ => ?_
  refine .ite (fun _ => parseDatetime_places _) fun _ => ?_
  exact .ite (fun _ => parseNumber_places _) fun _ => .fail _

theorem parseArray_places (h : PlacesValues turns) : c.Places (parseArray (turns + 1) c) := by
  have opened := (leads_advance c).trans (leads_skipWhitespaceAndComments _)
  unfold parseArray
  refine .ite (fun _ => .fail _) fun _ => ?_
  refine .ite (fun _ => .ok (opened.trans (leads_advance _))) fun _ => ?_
  exact opened.read ((h.elements _ []).map Value.array)

theorem arrayElements_places (h : PlacesValues turns) (result : List Value) :
    c.Places (arrayElements (turns + 1) c result) := by
  unfold arrayElements
  rcases (h.value c).cases with ⟨e, stop, stops⟩ | ⟨val, d, go, leads⟩
  · rw [stop]
    exact stops
  rw [go]
  have there := leads.trans (leads_skipWhitespaceAndComments d)
  have taken := there.trans (leads_advance _)
  refine .ite (fun _ => ?_) fun _ => .ite (fun _ => .ok taken) fun _ => there.read (.fail _)
  have next := taken.trans (leads_skipWhitespaceAndComments _)
  exact .ite (fun _ => .ok (next.trans (leads_advance _))) fun _ => next.read (h.elements _ _)

theorem parseInlineTable_places (h : PlacesValues turns) :
    c.Places (parseInlineTable (turns + 1) c) := by
  have opened := (leads_advance c).trans (leads_skipWhitespace _)
  unfold parseInlineTable
  refine .ite (fun _ => .fail _) fun _ => ?_
  refine .ite (fun _ => .ok (opened.trans (leads_advance _))) fun _ => ?_
  exact opened.read ((h.pairs _ TableNode.fresh).map
    (fun node => Value.dictionary node.mergeTables))

/-- A pair that cannot be added is an error at its start. -/
theorem inlinePairs_places (h : PlacesValues turns) (result : TableNode) :
    c.Places (inlinePairs (turns + 1) c result) := by
  unfold inlinePairs
  simp only
  rcases (h.keyValue c).cases with ⟨e, stop, stops⟩ | ⟨⟨keyPath, val⟩, d, go, leads⟩
  · rw [stop]
    exact stops
  rw [go]
  simp only
  rcases added : result.addPair keyPath val c.position with ⟨node, e | _⟩
  · obtain ⟨message, rfl⟩ := TableNode.addPair_failed (congrArg Prod.snd added)
    exact .failedAt .refl
  have there := leads.trans (leads_skipWhitespace d)
  have taken := there.trans (leads_advance _)
  refine .ite (fun _ => there.read (.fail _)) fun _ => ?_
  refine .ite (fun _ => ?_) fun _ => .ite (fun _ => .ok taken) fun _ => there.read (.fail _)
  exact (taken.trans (leads_skipWhitespace _)).read (h.pairs _ _)

theorem parseKeyValue_places (h : PlacesValues turns) : c.Places (parseKeyValue (turns + 1) c) := by
  unfold parseKeyValue
  rcases (parseKeyPath_places c).cases with ⟨e, stop, stops⟩ | ⟨keyPath, d, go, leads⟩
  · rw [stop]
    exact stops
  · rw [go]
    exact leads.read ((h.value d).map (fun val => (keyPath, val)))

end PlacesValues

theorem placesValues (turns : Nat) : PlacesValues turns := by
  induction turns with
  | zero =>
    constructor
    · exact fun _ => .outOfTurns
    · exact fun _ => .outOfTurns
    · exact fun _ _ => .outOfTurns
    · exact fun _ => .outOfTurns
    · exact fun _ _ => .outOfTurns
    · exact fun _ => .outOfTurns
  | succ turns ih =>
    constructor
    · exact fun c => ih.parseValue_places
    · exact fun c => ih.parseArray_places
    · exact fun c result => ih.arrayElements_places result
    · exact fun c => ih.parseInlineTable_places
    · exact fun c result => ih.inlinePairs_places result
    · exact fun c => ih.parseKeyValue_places

/-! ## Documents -/

theorem expectLineEnd_places (c : Cursor) : c.Places c.expectLineEnd := by
  have blanks := leads_skipWhitespace c
  unfold expectLineEnd
  exact .ite (fun _ => blanks.read (.fail _)) fun _ => .ok blanks

theorem parseStatement_places (c : Cursor) : c.Places c.parseStatement := by
  unfold parseStatement
  refine .ite (fun _ => ?_) fun _ => ?_
  · rcases (parseTableHeader_places c).cases with ⟨e, stop, stops⟩ | ⟨⟨keyPath, array⟩, d, go, leads⟩
    · rw [stop]
      exact stops
    · rw [go]
      exact leads.read ((expectLineEnd_places d).map
        (fun _ => (Statement.header keyPath array, c.position)))
  · rcases ((placesValues c.turns).keyValue c).cases with
      ⟨e, stop, stops⟩ | ⟨⟨keyPath, val⟩, d, go, leads⟩
    · rw [stop]
      exact stops
    · rw [go]
      exact leads.read ((expectLineEnd_places d).map
        (fun _ => (Statement.pair keyPath val, c.position)))

/-- The position of a statement is that of its first byte. -/
theorem parseStatement_start {s : Statement} {pos : Position}
    (read : c.parseStatement = .ok ((s, pos), d)) : pos = c.position := by
  have ended {t : Statement} {f : Cursor}
      (h : f.expectLineEnd.map (fun line => ((t, c.position), line.2)) = .ok ((s, pos), d)) :
      pos = c.position := by
    cases line : f.expectLineEnd with
    | error e =>
      rw [line] at h
      cases h
    | ok done =>
      rw [line] at h
      cases h
      rfl
  unfold parseStatement at read
  simp only at read
  split at read
  · split at read
    · cases read
    · exact ended read
  · split at read
    · cases read
    · exact ended read

theorem parseDocument_places (n : Nat) (c : Cursor) (doc : Document) :
    c.Places (parseDocument n c doc) := by
  induction n generalizing c doc with
  | zero => exact .outOfTurns
  | succ n ih =>
    have blanks := leads_skipWhitespaceAndComments c
    unfold parseDocument
    refine .ite (fun _ => .ok blanks) fun _ => ?_
    rcases (blanks.read (parseStatement_places _)).cases with
      ⟨e, stop, stops⟩ | ⟨⟨s, start⟩, f, go, leads⟩
    · rw [stop]
      exact stops
    rw [go]
    simp only
    rcases defined : doc.define s start with ⟨after, e | _⟩
    · obtain ⟨message, rfl⟩ := Document.define_failed (congrArg Prod.snd defined)
      rw [parseStatement_start go]
      exact .failedAt blanks
    · exact leads.read (ih _ _)

/-- The states a document is read through are all reached. -/
theorem AtLoop.reached {input : Text} {doc : Document} (h : AtLoop input c doc) :
    Reached input c := by
  induction h with
  | start => exact Reached.start input
  | next before statement defined ih =>
    exact ih.later ((leads_skipWhitespaceAndComments _).trans
      ((parseStatement_places _).leads _ _ statement))

theorem leads_steps {R : Cursor → Cursor → Prop} (step : ∀ c d, R c d → c.Leads d)
    (h : Relation.ReflTransGen R c d) : c.Leads d := by
  induction h with
  | refl => exact .refl
  | tail _ last ih => exact ih.trans (step _ _ last)

theorem NextElement.leads (h : NextElement c d) : c.Leads d := by
  obtain ⟨turns, val, e, -, go, -, rfl⟩ := h
  have read := ((placesValues turns).value c).leads val e go
  have there := read.trans (leads_skipWhitespaceAndComments e)
  exact (there.trans (leads_advance _)).trans (leads_skipWhitespaceAndComments _)

theorem NextPair.leads (h : NextPair c d) : c.Leads d := by
  obtain ⟨turns, pair, e, -, go, -, rfl⟩ := h
  have read := ((placesValues turns).keyValue c).leads pair e go
  have there := read.trans (leads_skipWhitespace e)
  exact (there.trans (leads_advance _)).trans (leads_skipWhitespace _)

/-- Each value is called for at a state reached from where the one around it is. -/
theorem Calls.leads (h : Calls c d) : c.Leads d := by
  have opened := (leads_skipWhitespace c).trans (leads_advance _)
  cases h with
  | element bracket elements =>
    exact (opened.trans (leads_skipWhitespaceAndComments _)).trans
      (leads_steps (fun _ _ => NextElement.leads) elements)
  | pair brace pairs named =>
    have there := (opened.trans (leads_skipWhitespace _)).trans
      (leads_steps (fun _ _ => NextPair.leads) pairs)
    exact there.trans ((parseKeyPath_places _).leads _ _ named)

theorem parse_failed {e : Error} (failed : c.parse = .error (.failed e)) :
    ∃ message d, c.Leads d ∧ e = createError message d.position := by
  unfold parse at failed
  have places := parseDocument_places (c.rest.length + 1) c Document.start
  rcases read : parseDocument (c.rest.length + 1) c Document.start with reason | ⟨doc, d⟩
  · rw [read] at failed
    cases failed
    exact places.failed e read
  · rw [read] at failed
    have there := (places.leads doc d read).trans (leads_skipWhitespaceAndComments d)
    simp only at failed
    split at failed
    · cases failed
      exact ⟨_, _, there, rfl⟩
    · cases failed

/-- How the readers move the position, and where their errors are. -/
structure ReadersPlace : Prop where
  skipWhitespace : ∀ c : Cursor, c.Leads c.skipWhitespace
  skipWhitespaceAndComments : ∀ c : Cursor, c.Leads c.skipWhitespaceAndComments
  expectLineEnd : ∀ c : Cursor, c.Places c.expectLineEnd
  appendEscape : ∀ (c : Cursor) result, c.Places (c.appendEscape result)
  basicString : ∀ kind n (c : Cursor) result, c.Places (Cursor.basicString kind n c result)
  literalString : ∀ kind n (c : Cursor) result, c.Places (Cursor.literalString kind n c result)
  multiLineString : ∀ quote kind n (c : Cursor) result,
    c.Places (Cursor.multiLineString quote kind n c result)
  parseString : ∀ c : Cursor, c.Places c.parseString
  parseKey : ∀ c : Cursor, c.Places c.parseKey
  parseTableHeader : ∀ c : Cursor, c.Places c.parseTableHeader
  parseKeyPath : ∀ c : Cursor, c.Places c.parseKeyPath
  parseBoolean : ∀ c : Cursor, c.Places c.parseBoolean
  parseDatetime : ∀ c : Cursor, c.Places c.parseDatetime
  parseNumber : ∀ c : Cursor, c.Places c.parseNumber
  values : ∀ turns, PlacesValues turns
  calls : ∀ c d, Calls c d → c.Leads d
  parseStatement : ∀ c : Cursor, c.Places c.parseStatement
  parseDocument : ∀ n (c : Cursor) doc, c.Places (Cursor.parseDocument n c doc)

theorem readersPlace : ReadersPlace := by
  constructor
  · exact leads_skipWhitespace
  · exact leads_skipWhitespaceAndComments
  · exact expectLineEnd_places
  · exact appendEscape_places
  · exact basicString_places
  · exact literalString_places
  · exact multiLineString_places
  · exact parseString_places
  · exact parseKey_places
  · exact parseTableHeader_places
  · exact parseKeyPath_places
  · exact parseBoolean_places
  · exact parseDatetime_places
  · exact parseNumber_places
  · exact placesValues
  · exact fun c d => Calls.leads
  · exact parseStatement_places
  · exact parseDocument_places

end Cursor

open Cursor in
/-- Every state of the parser has the line and column of its place in the input, and so has
every error. -/
theorem reported_positions (input : Text) :
    (∀ c, Reached input c → c.Real input) ∧ ReadersPlace ∧
      (∀ c doc, AtLoop input c doc → Reached input c) ∧
      ∀ e, Toml.deserialize input = .error (.failed e) →
        (isValidUtf8 input = false ∧ e = ⟨.invalidArgument, "Input is not valid UTF-8"⟩) ∨
          ∃ message n, n ≤ input.length ∧
            e = createError message (positionAfter (input.take n)) := by
  refine ⟨fun _ => Reached.real, readersPlace, fun _ _ => AtLoop.reached, fun e failed => ?_⟩
  unfold Toml.deserialize at failed
  split at failed
  · cases failed
  split at failed
  · rename_i invalid
    cases failed
    exact Or.inl ⟨by simpa using invalid, rfl⟩
  · obtain ⟨message, d, leads, rfl⟩ := parse_failed failed
    have real : d.Real input := Reached.real ((Reached.start input).later leads)
    exact Or.inr ⟨message, d.pos input, real.inside, by rw [real.before.2]⟩

end Dross
