import Dross.Format.WrittenTables

/-!
# How a document is read

What the serializer writes for a dictionary is read as the statements that build its
tables: a line for each pair, a blank line and a header for each table, and so on down.
-/

namespace Dross

open OrderedMap Toml

namespace Cursor

variable {c : Cursor} {more text text' : Text} {ss ss' : List Statement}

/-- A line feed in front of the statements makes no difference. -/
theorem skipWhitespaceAndComments_newline (here : c.rest = ch '\n' :: more) :
    c.skipWhitespaceAndComments = c.advance.skipWhitespaceAndComments := by
  have current := currentChar_of_at here
  have fewer : c.rest.length = c.advance.rest.length + 1 := by
    rw [rest_advance_of_at here, here, List.length_cons]
  rw [skipWhitespaceAndComments, skipLines, skipWhitespaceAndComments, fewer]
  simp [atEnd_of_at here, skipWhitespace_newline here, current, show ch '\n' ≠ ch '#' by decide]

theorem Spells.newline {read : List (Statement × Position)} (here : c.rest = ch '\n' :: more)
    (spells : c.advance.Spells read) : c.Spells read := by
  have same := skipWhitespaceAndComments_newline here
  cases spells with
  | done ended => exact .done (by rw [same]; exact ended)
  | next more read rest => exact .next (by rw [same]; exact more) (by rw [same]; exact read) rest

/-- Wherever the text stands, it is read as these statements, and then what is behind it. -/
def SpelledAs (text : Text) (ss : List Statement) : Prop :=
  ∀ (c : Cursor) (more : Text) (behind : List (Statement × Position)), c.rest = text ++ more →
    (c.skip text.length).Spells behind → ∃ read, read.map Prod.fst = ss ∧ c.Spells (read ++ behind)

theorem SpelledAs.nil : SpelledAs [] [] := fun _ _ _ _ spells => ⟨[], rfl, spells⟩

theorem SpelledAs.append (h : SpelledAs text ss) (k : SpelledAs text' ss') :
    SpelledAs (text ++ text') (ss ++ ss') := by
  intro c more behind here spells
  rw [List.append_assoc] at here
  rw [List.length_append, ← skip_skip] at spells
  obtain ⟨second, rfl, spells⟩ := k _ more behind (rest_skip_of_at here) spells
  obtain ⟨first, rfl, spells⟩ := h c (text' ++ more) _ here spells
  exact ⟨first ++ second, List.map_append, by rw [List.append_assoc]; exact spells⟩

/-- A line whose statement is read up to its line feed. -/
theorem SpelledAs.line {byte : UInt8} {tail : Text} {s : Statement} (opening : text = byte :: tail)
    (visible : isVisible byte = true)
    (read : ∀ (c : Cursor) (more : Text), c.rest = text ++ ch '\n' :: more →
      c.parseStatement = .ok ((s, c.position), c.skip text.length)) :
    SpelledAs (text ++ [ch '\n']) [s] := by
  intro c more behind here spells
  have here' : c.rest = text ++ ch '\n' :: more := by
    rw [here, List.append_assoc]
    rfl
  have first : c.rest = byte :: (tail ++ ch '\n' :: more) := by
    rw [here', opening]
    rfl
  have stop := skipWhitespaceAndComments_stop first visible
  have after := rest_skip_of_at here'
  refine ⟨[(s, c.position)], rfl, .next ?_ ?_ (Spells.newline after ?_)⟩
  · rw [stop]
    exact atEnd_of_at first
  · rw [stop]
    exact read c more here'
  · rw [skip_advance]
    rwa [List.length_append] at spells

/-- A blank line in front of a text. -/
theorem SpelledAs.blank (h : SpelledAs text ss) : SpelledAs (ch '\n' :: text) ss := by
  intro c more behind here spells
  obtain ⟨read, same, spells⟩ := h c.advance more behind (rest_advance_of_at here) spells
  exact ⟨read, same, Spells.newline here spells⟩

/-! ## Pairs and headers -/

theorem pair_spelled {key : Text} {v : Value} (read : ReadBack v)
    (written : serializeKeyValue key v = .ok text) :
    SpelledAs text [plainPair (key, v.comesBack)] := by
  obtain ⟨value, valueWritten, rfl⟩ := map_ok written
  obtain ⟨byte, tail, keyText, visible, bracket, -⟩ := escapeKey_start key
  have length : (escapeKey key ++ [ch ' ', ch '=', ch ' '] ++ value).length =
      (escapeKey key).length + 3 + value.length := by
    simp only [List.length_append, List.length_cons, List.length_nil]
  have opening : escapeKey key ++ [ch ' ', ch '=', ch ' '] ++ value =
      byte :: (tail ++ [ch ' ', ch '=', ch ' '] ++ value) := by
    rw [keyText]
    rfl
  refine SpelledAs.line opening visible fun c more here => ?_
  have here' : c.rest = escapeKey key ++ ch ' ' :: ch '=' :: ch ' ' :: (value ++ ch '\n' :: more) := by
    rw [here]
    simp
  have first : c.currentChar = byte := currentChar_of_at (by rw [here', keyText]; rfl)
  have pair := @parseKeyValue_written c _ key value v c.turns read valueWritten here'
    ⟨ch '\n', more, rfl, rfl⟩ (by unfold turns; omega)
  have ended := expectLineEnd_newline (rest_skip_of_at here)
  rw [length] at ended ⊢
  rw [parseStatement]
  simp only [first, if_neg bracket, pair, ended]
  rfl

theorem header_spelled (path : List Text) (key : Text) (array : Bool) :
    SpelledAs (header (path ++ [key]) array) [.header (KeyPath.to path key) array] := by
  rw [header_eq, KeyPath.to_keys]
  obtain ⟨tail, opening⟩ : ∃ tail, headerText
      ((KeyPath.to path key).first :: (KeyPath.to path key).rest) array = ch '[' :: tail := by
    cases array with
    | false => exact ⟨_, rfl⟩
    | true => exact ⟨_, rfl⟩
  refine SpelledAs.blank (SpelledAs.line opening (by decide) fun c more here => ?_)
  have first : c.currentChar = ch '[' := currentChar_of_at (by rw [here, opening]; rfl)
  have head := parseTableHeader_headerText here
  have ended := expectLineEnd_newline (rest_skip_of_at here)
  rw [parseStatement]
  simp only [first, if_true, head, ended]
  rfl

/-! ## Tables -/

theorem serializePairs_ok {key : Text} {v : Value} {rest : Dictionary}
    (pair : isWrittenAsTable v = false) (written : serializePairs ((key, v) :: rest) = .ok text) :
    ∃ line more, serializeKeyValue key v = .ok line ∧ serializePairs rest = .ok more ∧
      text = line ++ more := by
  rw [serializePairs, if_neg (by rw [pair]; exact Bool.false_ne_true)] at written
  cases line : serializeKeyValue key v with
  | error e =>
    rw [line] at written
    cases written
  | ok text =>
    rw [line] at written
    obtain ⟨more, restWritten, rfl⟩ := map_ok written
    exact ⟨text, more, rfl, restWritten, rfl⟩

theorem serializeDictionary_ok {d : Dictionary} {path : List Text}
    (written : serializeDictionary d path = .ok text) :
    ∃ pairs tables, serializePairs d = .ok pairs ∧ serializeTables path d = .ok tables ∧
      text = pairs ++ tables := by
  rw [serializeDictionary] at written
  cases pairs : serializePairs d with
  | error e =>
    rw [pairs] at written
    cases written
  | ok text =>
    rw [pairs] at written
    obtain ⟨tables, tablesWritten, rfl⟩ := map_ok written
    exact ⟨text, tables, rfl, tablesWritten, rfl⟩

/-- A pair has no headers. -/
theorem tableStatements_pair {path : List Text} {key : Text} {v : Value} {rest : Dictionary}
    (pair : isWrittenAsTable v = false) :
    tableStatements path ((key, v) :: rest) = tableStatements path rest := by
  cases v with
  | dictionary t => cases pair
  | array elements =>
    have other : isArrayOfTables (.array elements) = false := by
      simpa [isWrittenAsTable, isDictionary] using pair
    rw [tableStatements, other]
    rfl
  | _ => simp only [tableStatements]

theorem pairs_spelled {d : Dictionary} (all : ∀ p ∈ d, ReadBack p.2)
    (written : serializePairs d = .ok text) : SpelledAs text ((pairsOf d).map plainPair) := by
  induction d generalizing text with
  | nil =>
    obtain rfl := Except.ok.inj written
    exact SpelledAs.nil
  | cons p rest ih =>
    obtain ⟨key, v⟩ := p
    cases table : isWrittenAsTable v with
    | true =>
      rw [serializePairs, if_pos table] at written
      have pairs : pairsOf ((key, v) :: rest) = pairsOf rest := by simp [pairsOf, table]
      rw [pairs]
      exact ih (fun p mem => all p (List.mem_cons_of_mem _ mem)) written
    | false =>
      have pairs : pairsOf ((key, v) :: rest) = (key, v.comesBack) :: pairsOf rest := by
        simp [pairsOf, table]
      obtain ⟨line, more, lineWritten, restWritten, rfl⟩ := serializePairs_ok table written
      rw [pairs, List.map_cons]
      exact (pair_spelled (all (key, v) List.mem_cons_self) lineWritten).append
        (ih (fun p mem => all p (List.mem_cons_of_mem _ mem)) restWritten)

/-- What is written for a dictionary under a path is read as its statements. -/
def BodySpelled (t : Dictionary) : Prop :=
  ∀ (path : List Text) (pairs tables : Text), serializePairs t = .ok pairs →
    serializeTables path t = .ok tables → SpelledAs (pairs ++ tables) (bodyStatements path t)

/-- What is written under headers for a value is read as the statements of its tables. -/
def Spelled : Value → Prop
  | .dictionary t => BodySpelled t
  | .array elements => ∀ t, .dictionary t ∈ elements → BodySpelled t
  | _ => True

theorem headed_spelled {t : Dictionary} (spelled : BodySpelled t) {path : List Text} {key : Text}
    {array : Bool} (written : headedTable (path ++ [key]) array t = .ok text) :
    SpelledAs text (.header (KeyPath.to path key) array :: bodyStatements (path ++ [key]) t) := by
  obtain ⟨pairs, pairsWritten, others⟩ := bind_ok written
  obtain ⟨tables, tablesWritten, rfl⟩ := map_ok others
  rw [List.append_assoc]
  exact (header_spelled path key array).append
    (spelled (path ++ [key]) pairs tables pairsWritten tablesWritten)

theorem elements_spelled {path : List Text} {key : Text} {elements : List Value}
    (tables : ∀ u ∈ elements, isDictionary u = true)
    (spelled : ∀ t, .dictionary t ∈ elements → BodySpelled t)
    (written : serializeElementTables (path ++ [key]) elements = .ok text) :
    SpelledAs text (elementStatements path key elements) := by
  induction elements generalizing text with
  | nil =>
    rw [serializeElementTables] at written
    obtain rfl := Except.ok.inj written
    rw [elementStatements]
    exact SpelledAs.nil
  | cons v rest ih =>
    obtain ⟨t, rfl⟩ := isDictionary_iff.mp (tables v List.mem_cons_self)
    rw [serializeElementTables_cons] at written
    obtain ⟨first, firstWritten, others⟩ := bind_ok written
    obtain ⟨more, restWritten, rfl⟩ := map_ok others
    rw [elementStatements]
    exact (headed_spelled (spelled t List.mem_cons_self) firstWritten).append
      (ih (fun u mem => tables u (List.mem_cons_of_mem _ mem))
        (fun u mem => spelled u (List.mem_cons_of_mem _ mem)) restWritten)

theorem tables_spelled {d : Dictionary} (spelled : ∀ p ∈ d, Spelled p.2) {path : List Text}
    (written : serializeTables path d = .ok text) : SpelledAs text (tableStatements path d) := by
  induction d generalizing text with
  | nil =>
    rw [serializeTables] at written
    obtain rfl := Except.ok.inj written
    rw [tableStatements]
    exact SpelledAs.nil
  | cons p rest ih =>
    obtain ⟨key, v⟩ := p
    have first := spelled (key, v) List.mem_cons_self
    have later {more : Text} (restWritten : serializeTables path rest = .ok more) :=
      ih (fun p mem => spelled p (List.mem_cons_of_mem _ mem)) restWritten
    cases table : isWrittenAsTable v with
    | false =>
      rw [serializeTables_pair path key v rest table] at written
      rw [tableStatements_pair table]
      exact later written
    | true =>
      cases v with
      | dictionary t =>
        rw [serializeTables_dictionary] at written
        obtain ⟨text, textWritten, others⟩ := bind_ok written
        obtain ⟨more, restWritten, rfl⟩ := map_ok others
        rw [tableStatements]
        exact (headed_spelled first textWritten).append (later restWritten)
      | array elements =>
        have arrayOfTables : isArrayOfTables (.array elements) = true := by
          simpa [isWrittenAsTable, isDictionary] using table
        have shape := arrayOfTables
        rw [isArrayOfTables, Bool.and_eq_true, List.all_eq_true] at shape
        rw [serializeTables_array path key elements rest arrayOfTables] at written
        obtain ⟨text, textWritten, others⟩ := bind_ok written
        obtain ⟨more, restWritten, rfl⟩ := map_ok others
        rw [tableStatements, if_pos arrayOfTables]
        exact (elements_spelled shape.2 first textWritten).append (later restWritten)
      | _ => cases table

theorem bodySpelled {t : Dictionary} (ordered : ∀ p ∈ t, p.2.Ordered)
    (spelled : ∀ p ∈ t, Spelled p.2) : BodySpelled t := by
  intro path pairs tables pairsWritten tablesWritten
  exact (pairs_spelled (fun p mem => readBack (ordered p mem)) pairsWritten).append
    (tables_spelled spelled tablesWritten)

theorem spelled {v : Value} (ordered : v.Ordered) : Spelled v := by
  induction v using Value.induction with
  | array elements ih =>
    intro t mem
    exact ih _ mem (Value.orderedElements_iff.mp ordered _ mem)
  | dictionary t ih =>
    obtain ⟨sorted, properties⟩ := ordered
    have inside := Value.orderedProperties_iff.mp properties
    exact bodySpelled inside fun p mem => ih p mem (inside p mem)
  | _ => trivial

/-- The whole text of a dictionary is read as the statements of its tables. -/
theorem dictionary_spelled {d : Dictionary} (ordered : (Value.dictionary d).Ordered)
    (written : serializeDictionary d [] = .ok text) :
    ∃ read, read.map Prod.fst = bodyStatements [] d ∧ (start text).Spells read := by
  obtain ⟨pairs, tables, pairsWritten, tablesWritten, rfl⟩ := serializeDictionary_ok written
  have all := spelled ordered [] pairs tables pairsWritten tablesWritten
  have ended : ((start (pairs ++ tables)).skip (pairs ++ tables).length).rest = [] := by
    rw [rest_skip]
    exact List.drop_length
  have behind : ((start (pairs ++ tables)).skip (pairs ++ tables).length).Spells [] := by
    refine .done ?_
    have shorter := (past_skipWhitespaceAndComments
      ((start (pairs ++ tables)).skip (pairs ++ tables).length)).length_le
    rw [ended] at shorter
    rw [atEnd, List.isEmpty_iff]
    exact List.eq_nil_of_length_eq_zero (Nat.le_zero.mp shorter)
  obtain ⟨read, same, spells⟩ := all (start (pairs ++ tables)) [] [] (List.append_nil _).symm behind
  rw [List.append_nil] at spells
  exact ⟨read, same, spells⟩

end Cursor

end Dross
