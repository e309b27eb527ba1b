import Dross.Format.ReaderProgress

/-!
# The parser ends

Values and documents by induction on the turns: a call of `parse_value` is made further on
than the one it is made from, so the turns of a document are enough for all of them.
-/

namespace Dross

theorem Number.calculate_ends (a b : Number) :
    (∃ r, a.calculate b .plus = some r) ∧ ∃ r, a.calculate b .times = some r := by
  by_cases nan : a.isNan = true ∨ b.isNan = true
  · obtain ⟨sum, plus, -⟩ := (exact_arithmetic a b).2 nan .plus
    obtain ⟨product, times, -⟩ := (exact_arithmetic a b).2 nan .times
    exact ⟨⟨sum, plus⟩, product, times⟩
  · rw [not_or, Bool.not_eq_true, Bool.not_eq_true] at nan
    obtain ⟨⟨sum, plus, -⟩, -, product, times, -⟩ := (exact_arithmetic a b).1 nan.1 nan.2
    exact ⟨⟨sum, plus⟩, product, times⟩

/-- Every turn over the chunks leaves, or takes a digit at least. -/
theorem progressive_sumChunks {base bits chunk : Nat} (positive : 0 < chunk) :
    Turns.Progressive (fun n (s : Text × Number) => sumChunks base bits chunk n s.1 s.2)
      (fun s => s.1.length) (fun _ r => r ≠ .error .outOfTurns) := by
  rintro ⟨digits, result⟩
  by_cases empty : digits.isEmpty = true
  · left
    refine ⟨.ok result, fun n => ?_, fun stop => by cases stop⟩
    simp only [sumChunks, if_pos empty]
  · right
    obtain ⟨-, shifted, times⟩ := result.calculate_ends
      (Number.ofUnsigned (2 ^ (bits * min chunk digits.length)))
    obtain ⟨⟨summed, plus⟩, -⟩ := shifted.calculate_ends
      (Number.ofUnsigned (chunkValue base bits (digits.take (min chunk digits.length))).toNat)
    refine ⟨(digits.drop (min chunk digits.length), summed), id, ?_, fun n => ?_, fun _ good => good⟩
    · have nonempty : 0 < digits.length := by
        cases digits with
        | nil => exact absurd rfl empty
        | cons => exact Nat.succ_pos _
      change (digits.drop (min chunk digits.length)).length < digits.length
      rw [List.length_drop]
      omega
    · simp only [sumChunks, if_neg empty, times, Option.bind_some, plus, id]

namespace Cursor

variable {c : Cursor}

/-! ## Booleans and datetimes -/

theorem parseBoolean_reads (c : Cursor) : c.Reads 0 c.parseBoolean := by
  have taken (n : Nat) : c.Past 0 { c with rest := c.rest.drop n, column := c.column + n } :=
    ⟨List.drop_suffix _ _, by simp⟩
  unfold parseBoolean
  refine .ite (fun _ => .ok (taken 4)) fun _ => ?_
  exact .ite (fun _ => .ok (taken 5)) fun _ => .fail _

theorem takeDigits_skips {count : Nat} {s t : Cursor × Text} (h : takeDigits count s = some t) :
    s.1.Skips t.1 := by
  unfold takeDigits at h
  split at h
  · cases h
    exact ⟨_, rfl⟩
  · cases h

theorem takeChar_skips {byte : UInt8} {s t : Cursor × Text} (h : takeChar byte s = some t) :
    s.1.Skips t.1 := by
  unfold takeChar at h
  split at h
  · cases h
    exact skips_advance _
  · cases h

/-- Steps of a datetime one after the other. -/
theorem skips_bind {s t : Cursor × Text} {r : Option (Cursor × Text)}
    {f : Cursor × Text → Option (Cursor × Text)} (h : r.bind f = some t)
    (first : ∀ u, r = some u → s.1.Skips u.1) (second : ∀ u, f u = some t → u.1.Skips t.1) :
    s.1.Skips t.1 := by
  obtain ⟨u, hu, ht⟩ := Option.bind_eq_some_iff.mp h
  exact (first u hu).trans (second u ht)

theorem takeDate_skips {s t : Cursor × Text} (h : takeDate s = some t) : s.1.Skips t.1 := by
  refine skips_bind h (fun _ => takeDigits_skips) fun _ h => ?_
  refine skips_bind h (fun _ => takeChar_skips) fun _ h => ?_
  refine skips_bind h (fun _ => takeDigits_skips) fun _ h => ?_
  exact skips_bind h (fun _ => takeChar_skips) fun _ => takeDigits_skips

theorem takeTime_skips {s t : Cursor × Text} (h : takeTime s = some t) : s.1.Skips t.1 := by
  refine skips_bind h (fun _ => takeDigits_skips) fun _ h => ?_
  refine skips_bind h (fun _ => takeChar_skips) fun _ h => ?_
  refine skips_bind h (fun _ => takeDigits_skips) fun _ h => ?_
  exact skips_bind h (fun _ => takeChar_skips) fun _ => takeDigits_skips

theorem takeOffset_skips {s t : Cursor × Text} (h : takeOffset s = some t) : s.1.Skips t.1 := by
  refine skips_bind h (fun _ => takeChar_skips) fun _ h => ?_
  refine skips_bind h (fun _ => takeDigits_skips) fun _ h => ?_
  exact skips_bind h (fun _ => takeChar_skips) fun _ => takeDigits_skips

theorem takeFraction_skips (s : Cursor × Text) : s.1.Skips (takeFraction s).1 := by
  unfold takeFraction
  split
  · exact .refl _
  · rename_i t point
    exact (takeChar_skips point).trans ⟨_, rfl⟩

theorem finishDatetime_reads {s : Cursor × Text} (h : c.Past 0 s.1) (start : Position) :
    c.Reads 0 (finishDatetime start s) := by
  unfold finishDatetime
  split
  · exact .failed _
  · exact .ok h

theorem parseDatetime_reads (c : Cursor) : c.Reads 0 c.parseDatetime := by
  unfold parseDatetime
  simp only
  refine .ite (fun _ => .failed _) fun _ => ?_
  rcases date : takeDate (c, []) with _ | ⟨d, text⟩
  · exact .failed _
  refine .ite (fun _ => ?_) fun _ => .failed _
  rcases time : takeTime (d.advance, text ++ [ch 'T']) with _ | s
  · exact .failed _
  have there : c.Past 0 (takeFraction s).1 := (((takeDate_skips date).trans (skips_advance d)).trans
    ((takeTime_skips time).trans (takeFraction_skips s))).past
  refine .ite (fun _ => finishDatetime_reads (there.trans (past_advance _)) _) fun _ => ?_
  refine .ite (fun _ => ?_) fun _ => .failed _
  rcases offset : takeOffset (takeFraction s) with _ | t
  · exact .failed _
  · exact finishDatetime_reads (there.trans (takeOffset_skips offset).past) _

/-! ## Numbers -/

theorem digitValue_zero (base : Nat) : (digitValue 0 base).isNone = true := rfl

theorem advancing_readDigits (base : Nat) : Advancing Prod.fst
    (fun n (s : Cursor × Text × Nat) => readDigits base n s.1 s.2.1 s.2.2) := by
  rintro ⟨c, text, count⟩
  by_cases stray : (c.currentChar = ch '_' &&
      (count = 0 || (digitValue (c.peekChar 1) base).isNone)) = true
  · apply leaving (Reads.fail (c := c) "An underscore must be between digits")
    intro n
    simp only [readDigits, if_pos stray]
  have under : c.Past 0 (if c.currentChar = ch '_' then c.advance else c) := by
    split
    · exact past_advance c
    · exact Past.refl c
  by_cases stop : (digitValue (if c.currentChar = ch '_' then c.advance else c).currentChar
      base).isNone = true
  · apply leaving (Reads.ok (a := (text, count)) under)
    intro n
    simp only [readDigits, if_neg stray, if_pos stop]
  · have digit : (if c.currentChar = ch '_' then c.advance else c).currentChar ≠ 0 := by
      intro zero
      exact stop (by rw [zero]; exact digitValue_zero base)
    apply going ((if c.currentChar = ch '_' then c.advance else c).advance,
      text ++ [(if c.currentChar = ch '_' then c.advance else c).currentChar], count + 1)
      (under.trans (past_advance_of rfl digit))
    intro n
    simp only [readDigits, if_neg stray, if_neg stop]

theorem digitsOf_reads (c : Cursor) (base : Nat) (text : Text) :
    c.Reads 0 (c.digitsOf base text) :=
  (advancing_readDigits base).reads (s := (c, text, 0)) (Nat.lt_succ_self _)

theorem parsePrefixedInteger_reads (c : Cursor) : c.Reads 0 c.parsePrefixedInteger := by
  unfold parsePrefixedInteger
  simp only
  generalize (if c.peekChar 1 = ch 'x' then 16 else if c.peekChar 1 = ch 'o' then 8 else 2) = base
  rcases (digitsOf_reads (c.skip 2) base []).cases with ⟨e, stop⟩ | ⟨⟨digits, count⟩, d, go, past⟩
  · rw [stop]
    exact .failed e
  rw [go]
  simp only
  refine .ite (fun _ => .fail _) fun _ => ?_
  have positive : 0 < 63 / (if base = 16 then 4 else if base = 8 then 3 else 1) := by
    split_ifs <;> decide
  have ends := (@progressive_sumChunks base
    (if base = 16 then 4 else if base = 8 then 3 else 1) _ positive).good
    (s := (digits, Number.ofUnsigned 0)) (Nat.lt_succ_self _)
  generalize sumChunks _ _ _ _ _ _ = sum at ends ⊢
  rcases sum with (e | _) | result
  · exact .failed e
  · exact absurd rfl ends
  · exact .ok ((past_skip c 2).trans past)

theorem takeSign_skips (c : Cursor) (text : Text) : c.Skips (c.takeSign text).1 := by
  unfold takeSign
  split
  · exact skips_advance c
  · exact .refl c

theorem readFraction_reads (c : Cursor) (text : Text) : c.Reads 0 (c.readFraction text) := by
  unfold readFraction
  refine .ite (fun _ => ?_) fun _ => .ok (Past.refl c)
  rcases (digitsOf_reads c.advance 10 (text ++ [ch '.'])).cases with
    ⟨e, stop⟩ | ⟨⟨digits, count⟩, d, go, past⟩
  · rw [stop]
    exact .failed e
  · rw [go]
    exact .ite (fun _ => .fail _) fun _ => .ok ((past_advance c).trans past)

theorem readExponent_reads (c : Cursor) (text : Text) : c.Reads 0 (c.readExponent text) := by
  unfold readExponent
  refine .ite (fun _ => ?_) fun _ => .ok (Past.refl c)
  have signed := (past_advance c).trans (takeSign_skips c.advance (text ++ [c.currentChar])).past
  simp only
  rcases (digitsOf_reads (c.advance.takeSign (text ++ [c.currentChar])).1 10
    (c.advance.takeSign (text ++ [c.currentChar])).2).cases with
    ⟨e, stop⟩ | ⟨⟨digits, count⟩, d, go, past⟩
  · rw [stop]
    exact .failed e
  · rw [go]
    exact .ite (fun _ => .fail _) fun _ => .ok (signed.trans past)

theorem parseNumber_reads (c : Cursor) : c.Reads 0 c.parseNumber := by
  have unsigned := (takeSign_skips c []).past
  unfold parseNumber
  refine .ite (fun _ => parsePrefixedInteger_reads c) fun _ => ?_
  simp only
  refine .ite (fun _ => .fail _) fun _ => ?_
  rcases (digitsOf_reads (c.takeSign []).1 10 (c.takeSign []).2).cases with
    ⟨e, stop⟩ | ⟨⟨text, count⟩, d, go, past⟩
  · rw [stop]
    exact .failed e
  rw [go]
  simp only
  refine .ite (fun _ => .fail _) fun _ => ?_
  refine .ite (fun _ => .fail _) fun _ => ?_
  rcases (readFraction_reads d text).cases with ⟨e, stop⟩ | ⟨text, f, go, past'⟩
  · rw [stop]
    exact .failed e
  rw [go]
  simp only
  rcases (readExponent_reads f text).cases with ⟨e, stop⟩ | ⟨text, g, go, past''⟩
  · rw [stop]
    exact .failed e
  rw [go]
  exact .ite (fun _ => .fail _) fun _ => .ok (((unsigned.trans past).trans past').trans past'')

/-! ## Values -/

/-- What every call of the parser of values comes to with so many turns. -/
structure Ends (turns : Nat) : Prop where
  value : ∀ c : Cursor, 4 * c.rest.length + 1 ≤ turns → c.Reads 0 (parseValue turns c)
  array : ∀ c : Cursor, 4 * c.rest.length ≤ turns → c.currentChar = ch '[' →
    c.Reads 0 (parseArray turns c)
  elements : ∀ (c : Cursor) result,
    4 * c.rest.length + 2 ≤ turns → c.Reads 0 (arrayElements turns c result)
  inlineTable : ∀ c : Cursor, 4 * c.rest.length ≤ turns → c.currentChar = ch '{' →
    c.Reads 0 (parseInlineTable turns c)
  pairs : ∀ (c : Cursor) result,
    4 * c.rest.length + 2 ≤ turns → c.Reads 0 (inlinePairs turns c result)
  keyValue : ∀ c : Cursor, 4 * c.rest.length + 1 ≤ turns → c.Reads 1 (parseKeyValue turns c)

namespace Ends

variable {turns : Nat}

theorem parseValue_reads (h : Ends turns) (enough : 4 * c.rest.length + 1 ≤ turns + 1) :
    c.Reads 0 (parseValue (turns + 1) c) := by
  have blanks := past_skipWhitespace c
  have fewer := blanks.length_le
  unfold parseValue
  simp only
  refine blanks.read (n := 0) ?_
  refine .ite (fun _ => .fail _) fun _ => ?_
  refine .ite (fun _ => (parseString_reads _).map Value.string) fun _ => ?_
  refine .ite (fun bracket => h.array _ (by omega) bracket) fun _ => ?_
  refine .ite (fun brace => h.inlineTable _ (by omega) brace) fun _ => ?_
  refine .ite (fun _ => parseBoolean_reads _) fun _ => ?_
  refine .ite (fun _ => parseDatetime_reads _) fun _ => ?_
  exact .ite (fun _ => parseNumber_reads _) fun _ => .fail _

theorem parseArray_reads (h : Ends turns) (enough : 4 * c.rest.length ≤ turns + 1)
    (bracket : c.currentChar = ch '[') : c.Reads 0 (parseArray (turns + 1) c) := by
  have opened := (past_advance_of bracket (by decide)).trans (past_skipWhitespaceAndComments _)
  have fewer := opened.further
  unfold parseArray
  refine .ite (fun _ => .fail _) fun _ => ?_
  simp only
  refine .ite (fun _ => .ok (opened.weaken.trans (past_advance _))) fun _ => ?_
  exact opened.weaken.read ((h.elements _ [] (by omega)).map Value.array)

theorem arrayElements_reads (h : Ends turns) (result : List Value)
    (enough : 4 * c.rest.length + 2 ≤ turns + 1) :
    c.Reads 0 (arrayElements (turns + 1) c result) := by
  unfold arrayElements
  rcases (h.value c (by omega)).cases with ⟨e, stop⟩ | ⟨val, d, go, past⟩
  · rw [stop]
    exact .failed e
  rw [go]
  simp only
  have there := past.trans (past_skipWhitespaceAndComments d)
  refine .ite (fun comma => ?_) fun _ => ?_
  · have next := (there.trans (past_advance_of comma (by decide))).trans
      (past_skipWhitespaceAndComments _)
    have fewer := next.further
    refine .ite (fun _ => .ok (next.weaken.trans (past_advance _))) fun _ => ?_
    exact next.weaken.read (h.elements _ _ (by omega))
  · exact .ite (fun _ => .ok (there.trans (past_advance _))) fun _ => .fail _

theorem parseInlineTable_reads (h : Ends turns) (enough : 4 * c.rest.length ≤ turns + 1)
    (brace : c.currentChar = ch '{') : c.Reads 0 (parseInlineTable (turns + 1) c) := by
  have opened := (past_advance_of brace (by decide)).trans (past_skipWhitespace _)
  have fewer := opened.further
  unfold parseInlineTable
  refine .ite (fun _ => .fail _) fun _ => ?_
  simp only
  refine .ite (fun _ => .ok (opened.weaken.trans (past_advance _))) fun _ => ?_
  exact opened.weaken.read ((h.pairs _ TableNode.fresh (by omega)).map
    (fun node => Value.dictionary node.mergeTables))

theorem inlinePairs_reads (h : Ends turns) (result : TableNode)
    (enough : 4 * c.rest.length + 2 ≤ turns + 1) :
    c.Reads 0 (inlinePairs (turns + 1) c result) := by
  unfold inlinePairs
  simp only
  rcases (h.keyValue c (by omega)).cases with ⟨e, stop⟩ | ⟨⟨keyPath, val⟩, d, go, past⟩
  · rw [stop]
    exact .failed e
  rw [go]
  simp only
  rcases result.addPair keyPath val c.position with ⟨added, e | _⟩
  · exact .failed e
  simp only
  have there := past.trans (past_skipWhitespace d)
  refine .ite (fun _ => .fail _) fun _ => ?_
  refine .ite (fun comma => ?_) fun _ => ?_
  · have next := there.trans ((past_advance d.skipWhitespace).trans (past_skipWhitespace _))
    have fewer := next.further
    exact next.weaken.read (h.pairs _ _ (by omega))
  · exact .ite (fun _ => .ok (there.weaken.trans (past_advance _))) fun _ => .fail _

theorem parseKeyValue_reads (h : Ends turns) (enough : 4 * c.rest.length + 1 ≤ turns + 1) :
    c.Reads 1 (parseKeyValue (turns + 1) c) := by
  unfold parseKeyValue
  rcases (parseKeyPath_reads c).cases with ⟨e, stop⟩ | ⟨keyPath, d, go, past⟩
  · rw [stop]
    exact .failed e
  rw [go]
  have fewer := past.further
  exact past.read ((h.value d (by omega)).map (fun val => (keyPath, val)))

end Ends

/-- One turn more pays for one call. -/
theorem ends (turns : Nat) : Ends turns := by
  induction turns with
  | zero =>
    constructor
    · intro c enough
      omega
    · intro c enough bracket
      exact absurd (inside_of_currentChar (by rw [bracket]; decide)) (by omega)
    · intro c result enough
      omega
    · intro c enough brace
      exact absurd (inside_of_currentChar (by rw [brace]; decide)) (by omega)
    · intro c result enough
      omega
    · intro c enough
      omega
  | succ turns ih =>
    constructor
    · exact fun c enough => ih.parseValue_reads enough
    · exact fun c enough bracket => ih.parseArray_reads enough bracket
    · exact fun c result enough => ih.arrayElements_reads result enough
    · exact fun c enough brace => ih.parseInlineTable_reads enough brace
    · exact fun c result enough => ih.inlinePairs_reads result enough
    · exact fun c enough => ih.parseKeyValue_reads enough

/-! ## Where values call for values -/

/-- From the start of an element of an array to that of the next. -/
def NextElement (c d : Cursor) : Prop :=
  ∃ turns val e, 4 * c.rest.length + 1 ≤ turns ∧ parseValue turns c = .ok (val, e) ∧
    e.skipWhitespaceAndComments.currentChar = ch ',' ∧
    d = e.skipWhitespaceAndComments.advance.skipWhitespaceAndComments

/-- From the start of a pair of an inline table to that of the next. -/
def NextPair (c d : Cursor) : Prop :=
  ∃ turns pair e, 4 * c.rest.length + 1 ≤ turns ∧ parseKeyValue turns c = .ok (pair, e) ∧
    e.skipWhitespace.currentChar = ch ',' ∧ d = e.skipWhitespace.advance.skipWhitespace

/-- From one call of `parse_value` to those it makes, for the elements of an array and for the
values of the pairs of an inline table. -/
inductive Calls (c : Cursor) : Cursor → Prop
  | element {d} (bracket : c.skipWhitespace.currentChar = ch '[')
    (elements : Relation.ReflTransGen NextElement
      c.skipWhitespace.advance.skipWhitespaceAndComments d) : Calls c d
  | pair {d e keyPath} (brace : c.skipWhitespace.currentChar = ch '{')
    (pairs : Relation.ReflTransGen NextPair c.skipWhitespace.advance.skipWhitespace d)
    (named : d.parseKeyPath = .ok (keyPath, e)) : Calls c e

theorem NextElement.past {c d : Cursor} (h : NextElement c d) : c.Past 1 d := by
  obtain ⟨turns, val, e, enough, go, comma, rfl⟩ := h
  have read := ((ends turns).value c enough).past val e go
  have there := read.trans (past_skipWhitespaceAndComments e)
  exact (there.trans (past_advance_of comma (by decide))).trans (past_skipWhitespaceAndComments _)

theorem NextPair.past {c d : Cursor} (h : NextPair c d) : c.Past 1 d := by
  obtain ⟨turns, pair, e, enough, go, -, rfl⟩ := h
  have read := ((ends turns).keyValue c enough).past pair e go
  have there := read.trans (past_skipWhitespace e)
  exact (there.trans (past_advance _)).trans (past_skipWhitespace _)

theorem past_steps {R : Cursor → Cursor → Prop} {c d : Cursor} (step : ∀ c d, R c d → c.Past 1 d)
    (h : Relation.ReflTransGen R c d) : c.Past 0 d := by
  induction h with
  | refl => exact Past.refl c
  | tail _ last ih => exact (ih.trans (step _ _ last)).weaken

/-- A call of `parse_value` is made strictly later than the one it is made from. -/
theorem Calls.past {c d : Cursor} (h : Calls c d) : c.Past 1 d := by
  have blanks := past_skipWhitespace c
  cases h with
  | element bracket elements =>
    have opened := blanks.trans (past_advance_of bracket (by decide))
    exact (opened.trans (past_skipWhitespaceAndComments _)).trans
      (past_steps (fun _ _ => NextElement.past) elements)
  | pair brace pairs named =>
    have opened := blanks.trans (past_advance_of brace (by decide))
    have there := (opened.trans (past_skipWhitespace _)).trans
      (past_steps (fun _ _ => NextPair.past) pairs)
    exact (there.trans ((parseKeyPath_reads _).past _ _ named)).mono (by omega)

/-! ## Documents -/

theorem expectLineEnd_reads (c : Cursor) : c.Reads 0 c.expectLineEnd := by
  unfold expectLineEnd
  exact .ite (fun _ => .fail _) fun _ => .ok (past_skipWhitespace c)

theorem parseStatement_reads (c : Cursor) : c.Reads 1 c.parseStatement := by
  unfold parseStatement
  simp only
  refine .ite (fun _ => ?_) fun _ => ?_
  · rcases (parseTableHeader_reads c).cases with ⟨e, stop⟩ | ⟨⟨keyPath, array⟩, d, go, past⟩
    · rw [stop]
      exact .failed e
    · rw [go]
      exact past.read ((expectLineEnd_reads d).map (fun _ => (Statement.header keyPath array, c.position)))
  · rcases ((ends c.turns).keyValue c (by unfold turns; omega)).cases with
      ⟨e, stop⟩ | ⟨⟨keyPath, val⟩, d, go, past⟩
    · rw [stop]
      exact .failed e
    · rw [go]
      exact past.read ((expectLineEnd_reads d).map (fun _ => (Statement.pair keyPath val, c.position)))

theorem advancing_parseDocument :
    Advancing Prod.fst (fun n (s : Cursor × Document) => parseDocument n s.1 s.2) := by
  rintro ⟨c, d⟩
  have blanks := past_skipWhitespaceAndComments c
  by_cases ended : c.skipWhitespaceAndComments.atEnd = true
  · apply leaving (Reads.ok (a := d) blanks)
    intro n
    simp only [parseDocument, if_pos ended]
  rcases (parseStatement_reads c.skipWhitespaceAndComments).cases with
    ⟨e, stop⟩ | ⟨⟨s, start⟩, f, go, past⟩
  · apply leaving (Reads.failed e)
    intro n
    simp only [parseDocument, if_neg ended, stop]
  rcases defined : d.define s start with ⟨after, e | _⟩
  · apply leaving (Reads.failed e)
    intro n
    simp only [parseDocument, if_neg ended, go, defined]
  · apply going (f, after) (blanks.trans past)
    intro n
    simp only [parseDocument, if_neg ended, go, defined]

/-- Every input is read to a dictionary or to an error. -/
theorem parse_ends (input : Text) :
    (∃ d, (start input).parse = .ok d) ∨ ∃ e, (start input).parse = .error (.failed e) := by
  have document : (start input).Reads 0
      (parseDocument ((start input).rest.length + 1) (start input) Document.start) :=
    advancing_parseDocument.reads (s := (start input, Document.start)) (Nat.lt_succ_self _)
  unfold parse
  rcases document.cases with ⟨e, stop⟩ | ⟨d, c, go, -⟩
  · rw [stop]
    exact Or.inr ⟨e, rfl⟩
  · rw [go]
    simp only
    split
    · exact Or.inr ⟨_, rfl⟩
    · exact Or.inl ⟨_, rfl⟩

end Cursor

end Dross
