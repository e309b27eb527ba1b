import Dross.Library.Turns
import Dross.Format.TomlParser

/-!
# How far a reader goes

Every reader leaves the parser where it was or further on in the same input, and none of
their loops runs out of turns.
-/

namespace Dross

namespace Cursor

/-- At least so many bytes further on in the same input. -/
structure Past (n : Nat) (c d : Cursor) : Prop where
  suffix : d.rest <:+ c.rest
  further : d.rest.length + n ≤ c.rest.length

/-- What comes of reading: a failure, or a value and a cursor so many bytes further on. -/
structure Reads {α : Type} (n : Nat) (c : Cursor) (r : Reading α) : Prop where
  ends : r ≠ .error .outOfTurns
  past : ∀ a d, r = .ok (a, d) → c.Past n d

variable {α β : Type} {m n : Nat} {c d e : Cursor} {r : Reading α}

namespace Past

theorem refl (c : Cursor) : c.Past 0 c := ⟨List.suffix_refl _, Nat.le_refl _⟩

theorem trans (h : c.Past m d) (k : d.Past n e) : c.Past (m + n) e := by
  refine ⟨k.suffix.trans h.suffix, ?_⟩
  have first := h.further
  have second := k.further
  omega

theorem mono (h : c.Past n d) (fewer : m ≤ n) : c.Past m d := by
  refine ⟨h.suffix, ?_⟩
  have further := h.further
  omega

theorem weaken (h : c.Past n d) : c.Past 0 d := h.mono (Nat.zero_le n)

theorem length_le (h : c.Past n d) : d.rest.length ≤ c.rest.length := h.suffix.length_le

theorem length_lt (h : c.Past (n + 1) d) : d.rest.length < c.rest.length := by
  have further := h.further
  omega

end Past

/-! ## Steps -/

theorem past_skip (c : Cursor) (n : Nat) : c.Past 0 (c.skip n) := by
  constructor
  · rw [rest_skip]
    exact List.drop_suffix _ _
  · rw [rest_skip, List.length_drop]
    omega

theorem past_skip_within (inside : n ≤ c.rest.length) : c.Past n (c.skip n) := by
  refine ⟨(past_skip c n).suffix, ?_⟩
  rw [rest_skip, List.length_drop]
  omega

theorem past_advance (c : Cursor) : c.Past 0 c.advance := past_skip c 1

/-- A byte that is not the one for the end is there to be taken. -/
theorem inside_of_currentChar (h : c.currentChar ≠ 0) : 1 ≤ c.rest.length := by
  by_contra empty
  have nil : c.rest = [] := List.eq_nil_of_length_eq_zero (by omega)
  exact h (currentChar_of_nil nil)

theorem past_advance_of {byte : UInt8} (h : c.currentChar = byte) (byte_ne : byte ≠ 0) :
    c.Past 1 c.advance :=
  past_skip_within (inside_of_currentChar (h ▸ byte_ne))

theorem past_advance_inside (h : c.atEnd = false) : c.Past 1 c.advance := by
  apply past_skip_within
  apply List.length_pos_iff.mpr
  exact List.isEmpty_eq_false_iff.mp h

/-- Some bytes further on, one after the other. -/
def Skips (c d : Cursor) : Prop := ∃ n, d = c.skip n

namespace Skips

theorem refl (c : Cursor) : c.Skips c := ⟨0, rfl⟩

theorem trans (h : c.Skips d) (k : d.Skips e) : c.Skips e := by
  obtain ⟨m, rfl⟩ := h
  obtain ⟨n, rfl⟩ := k
  exact ⟨m + n, skip_skip c m n⟩

theorem past (h : c.Skips d) : c.Past 0 d := by
  obtain ⟨n, rfl⟩ := h
  exact past_skip c n

end Skips

theorem skips_advance (c : Cursor) : c.Skips c.advance := ⟨1, rfl⟩

theorem skips_advanceWhile (c : Cursor) (going : Cursor → Bool) :
    c.Skips (c.advanceWhile going) := by
  obtain ⟨rest, more⟩ : ∃ rest, c.rest = rest := ⟨_, rfl⟩
  induction rest generalizing c with
  | nil =>
    obtain ⟨rest, line, column⟩ := c
    cases more
    exact .refl _
  | cons byte rest ih =>
    by_cases go : going c = true
    · rw [advanceWhile_step more go]
      exact (skips_advance c).trans (ih _ (rest_advance_of_at more))
    · rw [advanceWhile_stop (Bool.eq_false_iff.mpr go)]
      exact .refl c

theorem past_advanceWhile (c : Cursor) (going : Cursor → Bool) : c.Past 0 (c.advanceWhile going) :=
  (skips_advanceWhile c going).past

theorem past_skipWhitespace (c : Cursor) : c.Past 0 c.skipWhitespace := past_advanceWhile ..

theorem past_skipComment (c : Cursor) : c.Past 0 c.skipComment := past_advanceWhile ..

/-- A turn over blank lines takes a line feed, or is the last. -/
theorem progressive_skipLines :
    Turns.Progressive skipLines (fun c => c.rest.length) (fun c d => c.Past 0 d) := by
  intro c
  by_cases ended : c.atEnd = true
  · left
    refine ⟨c, fun n => ?_, Past.refl c⟩
    rw [skipLines, if_pos ended]
  have blanks := past_skipWhitespace c
  have comment : c.Past 0 (if c.skipWhitespace.currentChar == ch '#' then
      c.skipWhitespace.skipComment else c.skipWhitespace) := by
    split
    · exact blanks.trans (past_skipComment _)
    · exact blanks
  generalize after : (if c.skipWhitespace.currentChar == ch '#' then
    c.skipWhitespace.skipComment else c.skipWhitespace) = d at comment
  by_cases newline : d.currentChar = ch '\n'
  · right
    have taken := comment.trans (past_advance_of newline (by decide))
    refine ⟨d.advance, id, taken.length_lt, fun n => ?_, fun r good => taken.weaken.trans good⟩
    rw [skipLines, if_neg ended]
    have stop : (d.currentChar == ch '\n') = true := beq_iff_eq.mpr newline
    simp only [after, stop, if_true, id]
  · left
    have stop : (d.currentChar == ch '\n') = false := beq_eq_false_iff_ne.mpr newline
    refine ⟨d, fun n => ?_, comment⟩
    rw [skipLines, if_neg ended]
    simp only [after, stop, Bool.false_eq_true, if_false]

theorem past_skipWhitespaceAndComments (c : Cursor) : c.Past 0 c.skipWhitespaceAndComments :=
  progressive_skipLines.good (Nat.lt_succ_self _)

namespace Reads

theorem cases (h : c.Reads n r) :
    (∃ e, r = .error (.failed e)) ∨ ∃ a d, r = .ok (a, d) ∧ c.Past n d := by
  rcases r with (e | _) | ⟨a, d⟩
  · exact Or.inl ⟨e, rfl⟩
  · exact absurd rfl h.ends
  · exact Or.inr ⟨a, d, rfl, h.past a d rfl⟩

theorem failed (e : Error) : c.Reads n (.error (.failed e) : Reading α) := by
  constructor
  · intro stop
    cases stop
  · intro a d read
    cases read

theorem fail (message : String) : d.Reads n (c.fail message : Reading α) := failed _

theorem ok {a : α} (h : c.Past n d) : c.Reads n (.ok (a, d)) := by
  constructor
  · intro stop
    cases stop
  · intro b e read
    cases read
    exact h

theorem ite {p : Prop} [Decidable p] {q : Reading α} (yes : p → c.Reads n q)
    (no : ¬p → c.Reads n r) : c.Reads n (if p then q else r) := by
  split
  · exact yes ‹_›
  · exact no ‹_›

theorem map (h : c.Reads n r) (f : α → β) :
    c.Reads n (r.map (fun read => (f read.1, read.2))) := by
  rcases h.cases with ⟨e, rfl⟩ | ⟨a, d, rfl, past⟩
  · exact failed e
  · exact ok past

end Reads

/-- What a reader further on comes to is further on from here as well. -/
theorem Past.read (h : c.Past m d) (k : d.Reads n r) : c.Reads (m + n) r :=
  ⟨k.ends, fun a e read => h.trans (k.past a e read)⟩

/-! ## Strings and keys -/

theorem appendEscape_reads (c : Cursor) (result : Text) : c.Reads 0 (c.appendEscape result) := by
  have here (t : Text) : c.Reads 0 (.ok (t, c) : Reading Text) := .ok (.refl c)
  unfold appendEscape
  refine .ite (fun _ => here _) fun _ => ?_
  refine .ite (fun _ => here _) fun _ => ?_
  refine .ite (fun _ => here _) fun _ => ?_
  refine .ite (fun _ => here _) fun _ => ?_
  refine .ite (fun _ => here _) fun _ => ?_
  refine .ite (fun _ => here _) fun _ => ?_
  refine .ite (fun _ => here _) fun _ => ?_
  refine .ite (fun _ => ?_) fun _ => .fail _
  refine .ite (fun _ => .fail _) fun _ => ?_
  exact .ite (fun _ => .fail _) fun _ => .ok (past_skip c _)

section Loops

variable {S : Type} {place : S → Cursor} {loop : Nat → S → Reading α} {s : S}

/-- Every turn of the loop leaves it, or takes a byte. -/
def Advancing (place : S → Cursor) (loop : Nat → S → Reading α) : Prop :=
  Turns.Progressive loop (fun s => (place s).rest.length) (fun s r => (place s).Reads 0 r)

/-- A turn of such a loop. -/
def Turn (place : S → Cursor) (loop : Nat → S → Reading α) (s : S) : Prop :=
  (∃ r, Turns.Leaves loop s r ∧ (place s).Reads 0 r) ∨
    ∃ t complete, (place t).rest.length < (place s).rest.length ∧
      Turns.GoesOn loop s t complete ∧ ∀ r, (place t).Reads 0 r → (place s).Reads 0 (complete r)

theorem leaving {r : Reading α} (good : (place s).Reads 0 r) (leaves : ∀ n, loop (n + 1) s = r) :
    Turn place loop s :=
  Or.inl ⟨r, leaves, good⟩

theorem going (t : S) (past : (place s).Past 1 (place t))
    (goesOn : ∀ n, loop (n + 1) s = loop n t) :
    Turn place loop s :=
  Or.inr ⟨t, id, past.length_lt, goesOn, fun _ good => past.weaken.read good⟩

theorem Advancing.reads (h : Advancing place loop) {n : Nat} (enough : (place s).rest.length < n) :
    (place s).Reads 0 (loop n s) :=
  Turns.Progressive.good h enough

end Loops

theorem advancing_basicString (kind : String) :
    Advancing Prod.fst (fun n (s : Cursor × Text) => basicString kind n s.1 s.2) := by
  rintro ⟨c, result⟩
  by_cases inside : (!c.atEnd && c.currentChar != ch '"') = true
  · have taken : c.Past 1 c.advance := by
      rw [Bool.and_eq_true, Bool.not_eq_true'] at inside
      exact past_advance_inside inside.1
    by_cases back : c.currentChar = ch '\\'
    · by_cases ended : c.advance.atEnd = true
      · apply leaving (Reads.fail (c := c.advance) ("Unterminated " ++ kind))
        intro n
        simp only [basicString, if_pos inside, if_pos back, if_pos ended]
      · rcases (appendEscape_reads c.advance result).cases with ⟨e, stop⟩ | ⟨text, d, go, past⟩
        · apply leaving (Reads.failed e)
          intro n
          simp only [basicString, if_pos inside, if_pos back, if_neg ended, stop]
        · apply going (d.advance, text) ((taken.trans past).trans (past_advance d))
          intro n
          simp only [basicString, if_pos inside, if_pos back, if_neg ended, go]
    · by_cases control : isForbiddenControl c.currentChar = true
      · apply leaving (Reads.fail (c := c) ("Control character in " ++ kind))
        intro n
        simp only [basicString, if_pos inside, if_neg back, if_pos control]
      · apply going (c.advance, result ++ [c.currentChar]) taken
        intro n
        simp only [basicString, if_pos inside, if_neg back, if_neg control]
  · by_cases closed : (c.currentChar != ch '"') = true
    · apply leaving (Reads.fail (c := c) ("Unterminated " ++ kind))
      intro n
      simp only [basicString, if_neg inside, if_pos closed]
    · apply leaving (Reads.ok (a := result) (past_advance c))
      intro n
      simp only [basicString, if_neg inside, if_neg closed]

theorem parseBasicString_reads (c : Cursor) (kind : String) :
    c.Reads 0 (c.parseBasicString kind) := by
  unfold parseBasicString
  refine .ite (fun _ => .fail _) fun _ => ?_
  have loop := (advancing_basicString kind).reads (s := (c.advance, [])) (Nat.lt_succ_self _)
  exact (past_advance c).read loop

theorem advancing_literalString (kind : String) :
    Advancing Prod.fst (fun n (s : Cursor × Text) => literalString kind n s.1 s.2) := by
  rintro ⟨c, result⟩
  by_cases inside : (!c.atEnd && c.currentChar != ch '\'') = true
  · by_cases control : isForbiddenControl c.currentChar = true
    · apply leaving (Reads.fail (c := c) ("Control character in " ++ kind))
      intro n
      simp only [literalString, if_pos inside, if_pos control]
    · have taken : c.Past 1 c.advance := by
        rw [Bool.and_eq_true, Bool.not_eq_true'] at inside
        exact past_advance_inside inside.1
      apply going (c.advance, result ++ [c.currentChar]) taken
      intro n
      simp only [literalString, if_pos inside, if_neg control]
  · by_cases closed : (c.currentChar != ch '\'') = true
    · apply leaving (Reads.fail (c := c) ("Unterminated " ++ kind))
      intro n
      simp only [literalString, if_neg inside, if_pos closed]
    · apply leaving (Reads.ok (a := result) (past_advance c))
      intro n
      simp only [literalString, if_neg inside, if_neg closed]

theorem parseLiteralString_reads (c : Cursor) (kind : String) :
    c.Reads 0 (c.parseLiteralString kind) := by
  have loop := (advancing_literalString kind).reads (s := (c.advance, [])) (Nat.lt_succ_self _)
  exact (past_advance c).read loop

theorem skips_skipLineEnd (c : Cursor) : c.Skips c.skipLineEnd := by
  unfold skipLineEnd
  split
  · exact (skips_advance c).trans (skips_advance _)
  · exact skips_advance c

theorem past_skipLineEnd (c : Cursor) : c.Past 0 c.skipLineEnd := (skips_skipLineEnd c).past

theorem past_skipLineEnd_inside (h : c.atEnd = false) : c.Past 1 c.skipLineEnd := by
  unfold skipLineEnd
  split
  · exact (past_advance_inside h).trans (past_advance _)
  · exact past_advance_inside h

theorem advancing_multiLineString (quote : UInt8) (kind : String) :
    Advancing Prod.fst (fun n (s : Cursor × Text) => multiLineString quote kind n s.1 s.2) := by
  rintro ⟨c, result⟩
  by_cases ended : c.atEnd = true
  · apply leaving (Reads.fail (c := c) ("Unterminated " ++ kind))
    intro n
    simp only [multiLineString, if_pos ended]
  have inside : c.atEnd = false := Bool.eq_false_iff.mpr ended
  have taken := past_advance_inside inside
  by_cases closing : (c.currentChar == quote && c.peekChar 1 == quote && c.peekChar 2 == quote) = true
  · apply leaving (Reads.ok (a := result ++ List.replicate (c.extraQuotes quote) quote)
      (past_skip c (3 + c.extraQuotes quote)))
    intro n
    simp only [multiLineString, if_neg ended, if_pos closing]
  by_cases back : (quote == ch '"' && c.currentChar == ch '\\') = true
  · by_cases trailing : (c.atLineEnd (c.blanksAhead + 1) || c.rest.length ≤ c.blanksAhead + 1) = true
    · apply going (c.advance.skipBlankLines, result) (taken.trans (past_advanceWhile _ _))
      intro n
      simp only [multiLineString, if_neg ended, if_neg closing, if_pos back, if_pos trailing]
    · rcases (appendEscape_reads c.advance result).cases with ⟨e, stop⟩ | ⟨text, d, go, past⟩
      · apply leaving (Reads.failed e)
        intro n
        simp only [multiLineString, if_neg ended, if_neg closing, if_pos back, if_neg trailing, stop]
      · apply going (d.advance, text) ((taken.trans past).trans (past_advance d))
        intro n
        simp only [multiLineString, if_neg ended, if_neg closing, if_pos back, if_neg trailing, go]
  by_cases newline : c.atLineEnd 0 = true
  · apply going (c.skipLineEnd,
      (if c.currentChar == ch '\r' then result ++ [ch '\r'] else result) ++ [ch '\n'])
      (past_skipLineEnd_inside inside)
    intro n
    simp only [multiLineString, if_neg ended, if_neg closing, if_neg back, if_pos newline]
  by_cases control : isForbiddenControl c.currentChar = true
  · apply leaving (Reads.fail (c := c) ("Control character in " ++ kind))
    intro n
    simp only [multiLineString, if_neg ended, if_neg closing, if_neg back, if_neg newline,
      if_pos control]
  · apply going (c.advance, result ++ [c.currentChar]) taken
    intro n
    simp only [multiLineString, if_neg ended, if_neg closing, if_neg back, if_neg newline,
      if_neg control]

theorem parseMultiLineString_reads (c : Cursor) (quote : UInt8) (kind : String) :
    c.Reads 0 (c.parseMultiLineString quote kind) := by
  have opened : c.Past 0 (if (c.skip 3).atLineEnd 0 then (c.skip 3).skipLineEnd else c.skip 3) := by
    split
    · exact (past_skip c 3).trans (past_skipLineEnd _)
    · exact past_skip c 3
  exact opened.read ((advancing_multiLineString quote kind).reads (s := (_, [])) (Nat.lt_succ_self _))

theorem parseString_reads (c : Cursor) : c.Reads 0 c.parseString := by
  unfold parseString
  refine .ite (fun _ => parseMultiLineString_reads c _ _) fun _ => ?_
  exact .ite (fun _ => parseBasicString_reads c _) fun _ => parseLiteralString_reads c _

theorem parseKey_reads (c : Cursor) : c.Reads 0 c.parseKey := by
  unfold parseKey
  refine .ite (fun _ => parseBasicString_reads c _) fun _ => ?_
  refine .ite (fun _ => parseLiteralString_reads c _) fun _ => ?_
  exact .ite (fun _ => .ok (past_skip c _)) fun _ => .fail _

/-- The rest of a dotted name onto its first part. -/
def underKey (key : Text) (r : Reading KeyPath) : Reading KeyPath :=
  r.map (fun read => (⟨key, read.1.keys⟩, read.2))

theorem Reads.underKey {r : Reading KeyPath} (h : c.Reads n r) (key : Text) :
    c.Reads n (underKey key r) :=
  h.map (fun more : KeyPath => (⟨key, more.keys⟩ : KeyPath))

theorem advancing_headerKeys : Advancing id headerKeys := by
  intro c
  rcases (parseKey_reads c.skipWhitespace).cases with ⟨e, stop⟩ | ⟨key, d, go, past⟩
  · apply leaving (Reads.failed e)
    intro n
    simp only [headerKeys, stop]
  have here := ((past_skipWhitespace c).trans past).trans (past_skipWhitespace d)
  by_cases dot : d.skipWhitespace.currentChar = ch '.'
  · right
    have further := here.trans (past_advance_of dot (by decide))
    refine ⟨d.skipWhitespace.advance, underKey key, further.length_lt, fun n => ?_,
      fun r good => further.weaken.read (good.underKey key)⟩
    simp only [headerKeys, go, if_pos dot, underKey]
    cases headerKeys n d.skipWhitespace.advance with
    | error e => rfl
    | ok read => rfl
  · by_cases close : d.skipWhitespace.currentChar = ch ']'
    · apply leaving (Reads.ok (a := ⟨key, []⟩) (here.trans (past_advance _)))
      intro n
      simp only [headerKeys, go, if_neg dot, if_pos close]
    · apply leaving (Reads.fail (c := d.skipWhitespace) "Expected '.' or ']'")
      intro n
      simp only [headerKeys, go, if_neg dot, if_neg close]

theorem parseTableHeader_reads (c : Cursor) : c.Reads 1 c.parseTableHeader := by
  unfold parseTableHeader
  by_cases bracket : (c.currentChar != ch '[') = true
  · rw [if_pos bracket]
    exact .fail _
  rw [if_neg bracket]
  have taken : c.Past 1 (if c.advance.currentChar == ch '[' then c.advance.advance else c.advance) := by
    have first := past_advance_of (not_not.mp (mt bne_iff_ne.mpr bracket)) (by decide)
    split
    · exact first.trans (past_advance _)
    · exact first
  simp only
  generalize (if c.advance.currentChar == ch '[' then c.advance.advance else c.advance) = d at *
  have keys : d.Reads 0 (headerKeys (d.rest.length + 1) d) :=
    advancing_headerKeys.reads (s := d) (Nat.lt_succ_self _)
  rcases keys.cases with ⟨e, stop⟩ | ⟨keyPath, f, go, past⟩
  · rw [stop]
    exact .failed e
  · have there := taken.trans past
    rw [go]
    refine .ite (fun _ => ?_) fun _ => .ok there
    exact .ite (fun _ => .fail _) fun _ => .ok (there.trans (past_advance f))

theorem advancing_pairKeys : Advancing id pairKeys := by
  intro c
  rcases (parseKey_reads c).cases with ⟨e, stop⟩ | ⟨key, d, go, past⟩
  · apply leaving (Reads.failed e)
    intro n
    simp only [pairKeys, stop]
  have here := past.trans (past_skipWhitespace d)
  by_cases dot : (d.skipWhitespace.currentChar != ch '.') = true
  · apply leaving (Reads.ok (a := ⟨key, []⟩) here)
    intro n
    simp only [pairKeys, go, if_pos dot]
  · right
    have further := (here.trans (past_advance_of (not_not.mp (mt bne_iff_ne.mpr dot))
      (by decide))).trans (past_skipWhitespace _)
    refine ⟨d.skipWhitespace.advance.skipWhitespace, underKey key, further.length_lt, fun n => ?_,
      fun r good => further.weaken.read (good.underKey key)⟩
    simp only [pairKeys, go, if_neg dot, underKey]
    cases pairKeys n d.skipWhitespace.advance.skipWhitespace with
    | error e => rfl
    | ok read => rfl

theorem parseKeyPath_reads (c : Cursor) : c.Reads 1 c.parseKeyPath := by
  unfold parseKeyPath
  have keys : c.Reads 0 (pairKeys (c.rest.length + 1) c) :=
    advancing_pairKeys.reads (s := c) (Nat.lt_succ_self _)
  rcases keys.cases with ⟨e, stop⟩ | ⟨keyPath, d, go, past⟩
  · rw [stop]
    exact .failed e
  · rw [go]
    simp only
    by_cases equals : (d.currentChar != ch '=') = true
    · rw [if_pos equals]
      exact .fail _
    · rw [if_neg equals]
      have taken := past_advance_of (not_not.mp (mt bne_iff_ne.mpr equals)) (by decide)
      exact .ok ((past.trans taken).trans (past_skipWhitespace _))

end Cursor

end Dross
