import Dross.Format.LineEndReaders

/-!
# Documents with either line ends

Keys, values and statements are read side by side from a document and from the one whose
line feeds have a CR before them. So the two have the same statements, and the same
tables.
-/

namespace Dross

open Lockstep OrderedMap

/-! ## Positions -/

/-- Where a pair stands is in the message of an error and nowhere else. -/
theorem TableNode.addPairParts_position (table : TableNode) (key : Text) (rest : List Text)
    (val : Value) (pos pos' : Position) :
    (table.addPairParts key rest val pos').1 = (table.addPairParts key rest val pos).1 ∧
      ((table.addPairParts key rest val pos').2 = .ok () ↔
        (table.addPairParts key rest val pos).2 = .ok ()) := by
  induction rest generalizing table key with
  | nil =>
    simp only [addPairParts, addKey, addDictionaryKey]
    by_cases inTables : contains table.tables key = true
    · simp [inTables]
    · by_cases inPairs : contains table.pairs key = true
      · simp [inTables, inPairs]
      · simp [inTables, inPairs]
  | cons next rest ih =>
    simp only [addPairParts]
    split
    · simp
    · split
      · obtain ⟨same, accepts⟩ := ih { fresh with dotted := true } next
        rw [same]
        exact ⟨rfl, accepts⟩
      · rename_i child _
        split
        · obtain ⟨same, accepts⟩ := ih child next
          rw [same]
          exact ⟨rfl, accepts⟩
        · simp

/-- A pair is added at both positions, or at neither. -/
theorem TableNode.addPair_position (table : TableNode) (keyPath : KeyPath) (val : Value)
    (pos pos' : Position) :
    (∃ node node' e e', table.addPair keyPath val pos = (node, .error e) ∧
        table.addPair keyPath val pos' = (node', .error e')) ∨
      ∃ node, table.addPair keyPath val pos = (node, .ok ()) ∧
        table.addPair keyPath val pos' = (node, .ok ()) := by
  obtain ⟨same, accepts⟩ := table.addPairParts_position keyPath.first keyPath.rest val pos pos'
  rw [← addPair, ← addPair] at same accepts
  rcases here : table.addPair keyPath val pos with ⟨node, e | u⟩
  · rcases there : table.addPair keyPath val pos' with ⟨node', e' | u'⟩
    · exact Or.inl ⟨node, node', e, e', rfl, rfl⟩
    · rw [here, there] at accepts
      cases accepts.mp rfl
  · rcases there : table.addPair keyPath val pos' with ⟨node', e' | u'⟩
    · rw [here, there] at accepts
      cases accepts.mpr rfl
    · rw [here, there] at same
      obtain rfl : node' = node := same
      exact Or.inr ⟨node', rfl, rfl⟩

namespace Cursor

variable {c d : Cursor}

namespace Alike

/-! ## Keys and headers -/

theorem headerKeys (h : Alike c d) (n m : Nat) : Agrees (headerKeys n c) (headerKeys m d) := by
  induction n generalizing c d m with
  | zero => exact .left
  | succ n ih =>
    cases m with
    | zero => exact .right
    | succ m =>
      rw [Cursor.headerKeys, Cursor.headerKeys]
      have key := h.skipWhitespace.alike.parseKey
      generalize c.skipWhitespace.parseKey = r at key ⊢
      generalize d.skipWhitespace.parseKey = r' at key ⊢
      cases key with
      | left => exact .left
      | right => exact .right
      | failed => exact .failed
      | @ok key e f still =>
        have level := still.skipWhitespace
        simp only [level.current]
        refine .ite Iff.rfl (fun point => ?_) fun _ => .ite Iff.rfl (fun bracket => .ok ?_)
          fun _ => .failed
        · have more := ih (level.alike.advance (by rw [point]; decide)) m
          generalize Cursor.headerKeys n e.skipWhitespace.advance = r at more ⊢
          generalize Cursor.headerKeys m f.skipWhitespace.advance = r' at more ⊢
          cases more with
          | left => exact .left
          | right => exact .right
          | failed => exact .failed
          | ok still => exact .ok still
        · exact level.alike.advance (by rw [bracket]; decide)

theorem parseTableHeader (h : Alike c d) : Agrees c.parseTableHeader d.parseTableHeader := by
  rw [Cursor.parseTableHeader, Cursor.parseTableHeader,
    h.byte (p := fun b => b != ch '[') (by decide)]
  refine .ite Iff.rfl (fun _ => .failed) fun opened => ?_
  have bracket : c.currentChar = ch '[' := by simpa using opened
  have next := h.advance (by rw [bracket]; decide)
  have double : (d.advance.currentChar == ch '[') = (c.advance.currentChar == ch '[') :=
    next.byte (p := fun b => b == ch '[') (by decide)
  have inside : Alike (if c.advance.currentChar == ch '[' then c.advance.advance else c.advance)
      (if c.advance.currentChar == ch '[' then d.advance.advance else d.advance) := by
    split
    · rename_i second
      rw [beq_iff_eq] at second
      exact next.advance (by rw [second]; decide)
    · exact next
  simp only [double]
  generalize (c.advance.currentChar == ch '[') = array at inside ⊢
  generalize (if array = true then c.advance.advance else c.advance) = e at inside ⊢
  generalize (if array = true then d.advance.advance else d.advance) = f at inside ⊢
  have keys := inside.headerKeys (e.rest.length + 1) (f.rest.length + 1)
  generalize Cursor.headerKeys (e.rest.length + 1) e = r at keys ⊢
  generalize Cursor.headerKeys (f.rest.length + 1) f = r' at keys ⊢
  cases keys with
  | left => exact .left
  | right => exact .right
  | failed => exact .failed
  | @ok keyPath e f still =>
    refine .ite Iff.rfl (fun _ => ?_) fun _ => .ok still
    rw [still.byte (p := fun b => b != ch ']') (by decide)]
    refine .ite Iff.rfl (fun _ => .failed) fun closed => .ok (still.advance ?_)
    have bracket : e.currentChar = ch ']' := by simpa using closed
    rw [bracket]
    decide

theorem pairKeys (h : Alike c d) (n m : Nat) : Agrees (pairKeys n c) (pairKeys m d) := by
  induction n generalizing c d m with
  | zero => exact .left
  | succ n ih =>
    cases m with
    | zero => exact .right
    | succ m =>
      rw [Cursor.pairKeys, Cursor.pairKeys]
      have key := h.parseKey
      generalize c.parseKey = r at key ⊢
      generalize d.parseKey = r' at key ⊢
      cases key with
      | left => exact .left
      | right => exact .right
      | failed => exact .failed
      | @ok key e f still =>
        have level := still.skipWhitespace
        simp only [level.current]
        refine .ite Iff.rfl (fun _ => .ok level.alike) fun point => ?_
        have here : e.skipWhitespace.currentChar = ch '.' := by simpa using point
        have more := ih (level.alike.advance (by rw [here]; decide)).skipWhitespace.alike m
        generalize Cursor.pairKeys n e.skipWhitespace.advance.skipWhitespace = r at more ⊢
        generalize Cursor.pairKeys m f.skipWhitespace.advance.skipWhitespace = r' at more ⊢
        cases more with
        | left => exact .left
        | right => exact .right
        | failed => exact .failed
        | ok still => exact .ok still

theorem parseKeyPath (h : Alike c d) : Agrees c.parseKeyPath d.parseKeyPath := by
  rw [Cursor.parseKeyPath, Cursor.parseKeyPath]
  have keys := h.pairKeys (c.rest.length + 1) (d.rest.length + 1)
  generalize Cursor.pairKeys (c.rest.length + 1) c = r at keys ⊢
  generalize Cursor.pairKeys (d.rest.length + 1) d = r' at keys ⊢
  cases keys with
  | left => exact .left
  | right => exact .right
  | failed => exact .failed
  | @ok keyPath e f still =>
    simp only [still.byte (p := fun b => b != ch '=') (by decide)]
    refine .ite Iff.rfl (fun _ => .failed) fun equals => ?_
    have here : e.currentChar = ch '=' := by simpa using equals
    exact .ok (still.advance (by rw [here]; decide)).skipWhitespace.alike

end Alike

/-! ## Values -/

/-- What the calls of the parser of values come to, with so many turns each. -/
structure AgreeAt (n m : Nat) : Prop where
  value : ∀ {c d}, Alike c d → Agrees (parseValue n c) (parseValue m d)
  array : ∀ {c d}, Alike c d → Agrees (parseArray n c) (parseArray m d)
  elements : ∀ {c d}, Alike c d → ∀ result,
    Agrees (arrayElements n c result) (arrayElements m d result)
  inlineTable : ∀ {c d}, Alike c d → Agrees (parseInlineTable n c) (parseInlineTable m d)
  pairs : ∀ {c d}, Alike c d → ∀ result, Agrees (inlinePairs n c result) (inlinePairs m d result)
  keyValue : ∀ {c d}, Alike c d → Agrees (parseKeyValue n c) (parseKeyValue m d)

namespace AgreeAt

variable {n m : Nat}

theorem parseValue (turns : AgreeAt n m) (h : Alike c d) :
    Agrees (parseValue (n + 1) c) (parseValue (m + 1) d) := by
  have level := h.skipWhitespace
  have alike := level.alike
  rw [Cursor.parseValue, Cursor.parseValue]
  simp only [level.current, alike.atInfOrNan, alike.atDate, alike.atTime]
  refine .ite Iff.rfl (fun _ => .failed) fun _ => ?_
  refine .ite Iff.rfl (fun quote => (alike.parseString (by simpa using quote)).map _) fun _ => ?_
  refine .ite Iff.rfl (fun _ => turns.array alike) fun _ => ?_
  refine .ite Iff.rfl (fun _ => turns.inlineTable alike) fun _ => ?_
  refine .ite Iff.rfl (fun _ => alike.parseBoolean) fun _ => ?_
  refine .ite Iff.rfl (fun _ => alike.parseDatetime) fun _ => ?_
  exact .ite Iff.rfl (fun _ => alike.parseNumber) fun _ => .failed

theorem parseArray (turns : AgreeAt n m) (h : Alike c d) :
    Agrees (parseArray (n + 1) c) (parseArray (m + 1) d) := by
  rw [Cursor.parseArray, Cursor.parseArray, h.byte (p := fun b => b != ch '[') (by decide)]
  refine .ite Iff.rfl (fun _ => .failed) fun opened => ?_
  have bracket : c.currentChar = ch '[' := by simpa using opened
  have level := (h.advance (by rw [bracket]; decide)).skipWhitespaceAndComments
  simp only [level.current]
  refine .ite Iff.rfl (fun closed => .ok (level.alike.advance (by rw [closed]; decide))) fun _ => ?_
  exact (turns.elements level.alike []).map _

theorem arrayElements (turns : AgreeAt n m) (h : Alike c d) (result : List Value) :
    Agrees (arrayElements (n + 1) c result) (arrayElements (m + 1) d result) := by
  rw [Cursor.arrayElements, Cursor.arrayElements]
  have value := turns.value h
  generalize Cursor.parseValue n c = r at value ⊢
  generalize Cursor.parseValue m d = r' at value ⊢
  cases value with
  | left => exact .left
  | right => exact .right
  | failed => exact .failed
  | @ok val e f still =>
    have level := still.skipWhitespaceAndComments
    simp only [level.current]
    refine .ite Iff.rfl (fun comma => ?_) fun _ => .ite Iff.rfl (fun closed => .ok ?_)
      fun _ => .failed
    · have next := (level.alike.advance (by rw [comma]; decide)).skipWhitespaceAndComments
      rw [next.current]
      refine .ite Iff.rfl (fun closed => .ok (next.alike.advance ?_)) fun _ => ?_
      · rw [closed]
        decide
      · exact turns.elements next.alike _
    · exact level.alike.advance (by rw [closed]; decide)

theorem parseInlineTable (turns : AgreeAt n m) (h : Alike c d) :
    Agrees (parseInlineTable (n + 1) c) (parseInlineTable (m + 1) d) := by
  rw [Cursor.parseInlineTable, Cursor.parseInlineTable,
    h.byte (p := fun b => b != ch '{') (by decide)]
  refine .ite Iff.rfl (fun _ => .failed) fun opened => ?_
  have brace : c.currentChar = ch '{' := by simpa using opened
  have level := (h.advance (by rw [brace]; decide)).skipWhitespace
  simp only [level.current]
  refine .ite Iff.rfl (fun closed => .ok (level.alike.advance (by rw [closed]; decide))) fun _ => ?_
  exact (turns.pairs level.alike TableNode.fresh).map (fun node => Value.dictionary node.mergeTables)

theorem inlinePairs (turns : AgreeAt n m) (h : Alike c d) (result : TableNode) :
    Agrees (inlinePairs (n + 1) c result) (inlinePairs (m + 1) d result) := by
  rw [Cursor.inlinePairs, Cursor.inlinePairs]
  have pair := turns.keyValue h
  generalize Cursor.parseKeyValue n c = r at pair ⊢
  generalize Cursor.parseKeyValue m d = r' at pair ⊢
  cases pair with
  | left => exact .left
  | right => exact .right
  | failed => exact .failed
  | @ok pair e f still =>
    obtain ⟨keyPath, val⟩ := pair
    simp only
    rcases result.addPair_position keyPath val c.position d.position with
      ⟨node, node', e, e', here, there⟩ | ⟨node, here, there⟩
    · rw [here, there]
      exact .failed
    · rw [here, there]
      have level := still.skipWhitespace
      simp only [level.current]
      refine .ite Iff.rfl (fun _ => .failed) fun _ => ?_
      refine .ite Iff.rfl (fun comma => ?_) fun _ => .ite Iff.rfl (fun closed => .ok ?_)
        fun _ => .failed
      · exact turns.pairs (level.alike.advance (by rw [comma]; decide)).skipWhitespace.alike node
      · exact level.alike.advance (by rw [closed]; decide)

theorem parseKeyValue (turns : AgreeAt n m) (h : Alike c d) :
    Agrees (parseKeyValue (n + 1) c) (parseKeyValue (m + 1) d) := by
  rw [Cursor.parseKeyValue, Cursor.parseKeyValue]
  have keys := h.parseKeyPath
  generalize c.parseKeyPath = r at keys ⊢
  generalize d.parseKeyPath = r' at keys ⊢
  cases keys with
  | left => exact .left
  | right => exact .right
  | failed => exact .failed
  | ok still => exact (turns.value still).map _

end AgreeAt

/-- The calls of both parsers take their turns together. -/
theorem agreeAt (n m : Nat) : AgreeAt n m := by
  induction n generalizing m with
  | zero =>
    constructor
    · exact fun _ => .left
    · exact fun _ => .left
    · exact fun _ _ => .left
    · exact fun _ => .left
    · exact fun _ _ => .left
    · exact fun _ => .left
  | succ n ih =>
    cases m with
    | zero =>
      constructor
      · exact fun _ => .right
      · exact fun _ => .right
      · exact fun _ _ => .right
      · exact fun _ => .right
      · exact fun _ _ => .right
      · exact fun _ => .right
    | succ m =>
      constructor
      · exact (ih m).parseValue
      · exact (ih m).parseArray
      · exact (ih m).arrayElements
      · exact (ih m).parseInlineTable
      · exact (ih m).inlinePairs
      · exact (ih m).parseKeyValue

/-! ## Statements and documents -/

/-- Both fail at the statement, or read the same one and stay alike. -/
theorem Alike.parseStatement (h : Alike c d) :
    ((∃ e, c.parseStatement = .error e) ∧ ∃ e, d.parseStatement = .error e) ∨
      ∃ s pos pos' e f, c.parseStatement = .ok ((s, pos), e) ∧
        d.parseStatement = .ok ((s, pos'), f) ∧ Alike e f := by
  have lines {s : Statement} {e f : Cursor} (pos pos' : Position) (still : Alike e f) :
      ((∃ e', (e.expectLineEnd.map (fun read => ((s, pos), read.2)) :
          Reading (Statement × Position)) = .error e') ∧
        ∃ e', (f.expectLineEnd.map (fun read => ((s, pos'), read.2)) :
          Reading (Statement × Position)) = .error e') ∨
      ∃ t q q' e' f', (e.expectLineEnd.map (fun read => ((s, pos), read.2)) :
          Reading (Statement × Position)) = .ok ((t, q), e') ∧
        (f.expectLineEnd.map (fun read => ((s, pos'), read.2)) :
          Reading (Statement × Position)) = .ok ((t, q'), f') ∧ Alike e' f' := by
    rcases still.expectLineEnd.outcomes (expectLineEnd_reads e).ends (expectLineEnd_reads f).ends with
      ⟨e', f', here, there⟩ | ⟨u, e', f', here, there, alike⟩
    · rw [here, there]
      exact Or.inl ⟨⟨e', rfl⟩, f', rfl⟩
    · rw [here, there]
      exact Or.inr ⟨s, pos, pos', e', f', rfl, rfl, alike⟩
  have bracket := h.is (b := ch '[') (by decide) (by decide)
  rw [Cursor.parseStatement, Cursor.parseStatement]
  by_cases header : c.currentChar = ch '['
  · simp only [if_pos header, if_pos (bracket.mpr header)]
    rcases h.parseTableHeader.outcomes (parseTableHeader_reads c).ends
      (parseTableHeader_reads d).ends with ⟨e, f, here, there⟩ |
      ⟨⟨keyPath, array⟩, e, f, here, there, still⟩
    · rw [here, there]
      exact Or.inl ⟨⟨e, rfl⟩, f, rfl⟩
    · rw [here, there]
      exact lines _ _ still
  · simp only [if_neg header, if_neg (mt bracket.mp header)]
    have pair := (agreeAt c.turns d.turns).keyValue h
    have ends (e : Cursor) := (ends e.turns).keyValue e (by unfold turns; omega)
    rcases pair.outcomes (ends c).ends (ends d).ends with
      ⟨e, f, here, there⟩ | ⟨⟨keyPath, val⟩, e, f, here, there, still⟩
    · rw [here, there]
      exact Or.inl ⟨⟨e, rfl⟩, f, rfl⟩
    · rw [here, there]
      exact lines _ _ still

variable {ss : List (Statement × Position)}

theorem Alike.spells (h : Alike c d) (spells : c.Spells ss) :
    ∃ ss', d.Spells ss' ∧ ss'.map Prod.fst = ss.map Prod.fst := by
  induction spells generalizing d with
  | done ended =>
    refine ⟨[], .done ?_, rfl⟩
    rw [h.skipWhitespaceAndComments.alike.atEnd, ended]
  | @next c e s ss more read rest ih =>
    have level := h.skipWhitespaceAndComments
    rcases level.alike.parseStatement with ⟨⟨e, failed⟩, -⟩ | ⟨t, pos, pos', e', f', here, there, still⟩
    · rw [failed] at read
      cases read
    · rw [here] at read
      obtain ⟨rfl, rfl⟩ := Prod.mk.inj (Except.ok.inj read)
      obtain ⟨ss', spells', same⟩ := ih still
      refine ⟨(t, pos') :: ss', .next ?_ there spells', ?_⟩
      · rw [level.alike.atEnd, more]
      · rw [List.map_cons, List.map_cons, same]

theorem Alike.spells_back (h : Alike c d) (spells : d.Spells ss) :
    ∃ ss', c.Spells ss' ∧ ss'.map Prod.fst = ss.map Prod.fst := by
  induction spells generalizing c with
  | done ended =>
    refine ⟨[], .done ?_, rfl⟩
    rw [← h.skipWhitespaceAndComments.alike.atEnd, ended]
  | @next d e s ss more read rest ih =>
    have level := h.skipWhitespaceAndComments
    rcases level.alike.parseStatement with ⟨-, e, failed⟩ | ⟨t, pos, pos', e', f', here, there, still⟩
    · rw [failed] at read
      cases read
    · rw [there] at read
      obtain ⟨rfl, rfl⟩ := Prod.mk.inj (Except.ok.inj read)
      obtain ⟨ss', spells', same⟩ := ih still
      refine ⟨(t, pos) :: ss', .next ?_ here spells', ?_⟩
      · rw [← level.alike.atEnd, more]
      · rw [List.map_cons, List.map_cons, same]

end Cursor

/-- What is accepted and what it gives is decided by the statements, wherever they stand. -/
theorem Document.defineAll_position {ss ss' : List (Statement × Position)} {d : Document}
    (same : ss'.map Prod.fst = ss.map Prod.fst) (all : Document.start.defineAll ss = (d, .ok ())) :
    ∃ d', Document.start.defineAll ss' = (d', .ok ()) ∧
      d'.root.mergeTables = d.root.mergeTables := by
  have rules := (Document.defined_iff ss).mp ⟨d, all⟩
  rw [← same] at rules
  obtain ⟨d', all'⟩ := (Document.defined_iff ss').mpr rules
  have shows := Document.shows_of_defined all
  have shows' := Document.shows_of_defined all'
  have view : d'.root.view = d.root.view := by
    funext P
    rw [same] at shows'
    exact (shows'.shown P).symm.trans (shows.shown P)
  exact ⟨d', all', (shows'.wellFormed.merge_congr shows.wellFormed view).1⟩

/-- A CR in front of a line feed is no less valid than the line feed. -/
theorem validFrom_crlf {count : Nat} {low high : UInt8} (bound : 0x80 ≤ low) (t : Text) :
    validFrom count low high (crlf t) = validFrom count low high t := by
  induction t generalizing count low high with
  | nil => rfl
  | cons b t ih =>
    by_cases newline : b = ch '\n'
    · subst newline
      rw [crlf_newline]
      cases count with
      | zero =>
        rw [validFrom, followedBy_ascii (by decide), validFrom, followedBy_ascii (by decide)]
        simp only [validFrom, followedBy_ascii (show ch '\n' ≤ 0x7F by decide)]
        exact ih (by decide)
      | succ count =>
        have less (c : UInt8) (ascii : c < 0x80) : (c < low || c > high) = true := by
          simp [lt_of_lt_of_le ascii bound]
        rw [validFrom, validFrom, if_pos (less _ (by decide)), if_pos (less _ (by decide))]
    · rw [crlf_cons newline]
      cases count with
      | zero =>
        rw [validFrom, validFrom]
        cases follows : followedBy b with
        | none => rfl
        | some more => exact ih (followedBy_low follows)
      | succ count =>
        rw [validFrom, validFrom]
        split
        · rfl
        · exact ih (by decide)

/-- A document without a CR and without three equal quotes in a row is accepted with LF line
ends exactly where it is with CR LF, and gives the same dictionary. -/
theorem line_endings {x : Text} (noCr : ch '\r' ∉ x)
    (noTriple : ∀ quote, quote = ch '"' ∨ quote = ch '\'' → ¬ [quote, quote, quote] <:+: x)
    (result : Dictionary) :
    ((Cursor.start (crlf x)).parse = .ok result ↔ (Cursor.start x).parse = .ok result) ∧
      (Toml.deserialize (crlf x) = .ok result ↔ Toml.deserialize x = .ok result) := by
  have alike := Cursor.Alike.start ⟨noCr, noTriple⟩
  have parsed : (Cursor.start (crlf x)).parse = .ok result ↔
      (Cursor.start x).parse = .ok result := by
    rw [Cursor.parse_ok_iff, Cursor.parse_ok_iff]
    constructor
    · rintro ⟨ss, d, spells, all, rfl⟩
      obtain ⟨ss', spells', same⟩ := alike.spells_back spells
      obtain ⟨d', all', merged⟩ := Document.defineAll_position same all
      exact ⟨ss', d', spells', all', merged.symm⟩
    · rintro ⟨ss, d, spells, all, rfl⟩
      obtain ⟨ss', spells', same⟩ := alike.spells spells
      obtain ⟨d', all', merged⟩ := Document.defineAll_position same all
      exact ⟨ss', d', spells', all', merged.symm⟩
  have valid : isValidUtf8 (crlf x) = isValidUtf8 x := validFrom_crlf (by decide) x
  refine ⟨parsed, ?_⟩
  rw [deserialize_ok_iff, deserialize_ok_iff, valid, parsed]

/-- A comment ends at its line feed, in an array as well. -/
theorem line_endings_comment :
    Toml.deserialize (crlf ("a = [true, # c\nfalse]\n[t]\nb.c = 'x'\n".toList.map ch)) =
      .ok [([ch 'a'], .array [.boolean true, .boolean false]),
        ([ch 't'], .dictionary [([ch 'b'], .dictionary [([ch 'c'], .string [ch 'x'])])])] := by
  have noTriple (quote : UInt8) (known : quote = ch '"' ∨ quote = ch '\'') :
      ¬ [quote, quote, quote] <:+:
        "a = [true, # c\nfalse]\n[t]\nb.c = 'x'\n".toList.map ch := by
    rcases known with rfl | rfl
    · decide
    · decide
  exact (line_endings (by decide) noTriple _).2.mpr rfl

end Dross
