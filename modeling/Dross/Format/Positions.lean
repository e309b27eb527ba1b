import Dross.Format.ParserCalls
import Dross.Library.Transition

/-!
# Reported positions are real

The position changes byte by byte, or past a boolean by hand, and its line and column
are then those of the bytes before it. Every reader leaves the parser at such a state,
and places its errors at one.
-/

namespace Dross

/-- How many bytes there are since the last line feed. -/
def sinceNewline (before : Text) : Nat :=
  (before.reverse.takeWhile (fun byte => byte != ch '\n')).length

/-- The line and column of the byte that comes after these. -/
def positionAfter (before : Text) : Position :=
  ⟨1 + before.count (ch '\n'), 1 + sinceNewline before⟩

theorem positionAfter_newline (before : Text) :
    positionAfter (before ++ [ch '\n']) = ⟨(positionAfter before).line + 1, 1⟩ := by
  simp [positionAfter, sinceNewline, Nat.add_assoc]

theorem positionAfter_other (before : Text) {byte : UInt8} (other : byte ≠ ch '\n') :
    positionAfter (before ++ [byte]) =
      ⟨(positionAfter before).line, (positionAfter before).column + 1⟩ := by
  simp [positionAfter, sinceNewline, other, Nat.add_assoc]

namespace Cursor

/-- `_pos`, the bytes of the input that are read. -/
def pos (input : Text) (c : Cursor) : Nat := input.length - c.rest.length

/-- The state is that of a place in the input, with the line and column of it. -/
structure Real (input : Text) (c : Cursor) : Prop where
  inside : c.pos input ≤ input.length
  rest : c.rest = input.drop (c.pos input)
  line : c.line = 1 + (input.take (c.pos input)).count (ch '\n')
  column : c.column = 1 + sinceNewline (input.take (c.pos input))

/-- A change of the position: `advance()`, or the bytes of a boolean at once. -/
inductive Moves : Cursor → Cursor → Prop
  | advance (c : Cursor) : Moves c c.advance
  | boolean {c d : Cursor} {val : Value} (read : c.parseBoolean = .ok (val, d)) : Moves c d

/-- Moves one after the other. -/
def Leads : Cursor → Cursor → Prop := Relation.ReflTransGen Moves

/-- The states of the parser on an input. -/
abbrev Reached (input : Text) : Cursor → Prop :=
  Transition.Reachable (fun c => c = start input) Moves

/-! ## What a move keeps -/

theorem Real.of_before {input : Text} {c : Cursor} (before : Text) (here : input = before ++ c.rest)
    (place : c.position = positionAfter before) : c.Real input := by
  have read : c.pos input = before.length := by
    rw [pos, here, List.length_append, Nat.add_sub_cancel]
  have taken : input.take before.length = before := by rw [here, List.take_left]
  constructor
  · exact Nat.sub_le _ _
  · rw [read, here, List.drop_left]
  · rw [read, taken]
    exact congrArg Position.line place
  · rw [read, taken]
    exact congrArg Position.column place

theorem Real.before {input : Text} {c : Cursor} (h : c.Real input) :
    input = input.take (c.pos input) ++ c.rest ∧
      c.position = positionAfter (input.take (c.pos input)) := by
  constructor
  · conv_rhs => rw [h.rest]
    exact (List.take_append_drop _ _).symm
  · rw [position, h.line, h.column]
    rfl

theorem Real.start (input : Text) : (start input).Real input :=
  Real.of_before [] rfl rfl

theorem Real.advance {input : Text} {c : Cursor} (h : c.Real input) : c.advance.Real input := by
  obtain ⟨here, place⟩ := h.before
  generalize input.take (c.pos input) = before at here place
  obtain ⟨rest, line, column⟩ := c
  cases rest with
  | nil => exact h
  | cons byte rest =>
    have line_eq : line = (positionAfter before).line := congrArg Position.line place
    have column_eq : column = (positionAfter before).column := congrArg Position.column place
    rw [Cursor.advance]
    simp only
    split
    · rename_i newline
      refine Real.of_before (before ++ [byte]) (by rw [here, List.append_assoc]; rfl) ?_
      rw [newline, positionAfter_newline, position, line_eq]
    · rename_i other
      refine Real.of_before (before ++ [byte]) (by rw [here, List.append_assoc]; rfl) ?_
      rw [positionAfter_other before other, position, line_eq, column_eq]

theorem Real.skip {input : Text} {c : Cursor} (h : c.Real input) (n : Nat) :
    (c.skip n).Real input := by
  induction n generalizing c with
  | zero => exact h
  | succ n ih => exact ih h.advance

/-- No boolean crosses a line, so the skip by hand is that of its bytes one by one. -/
theorem parseBoolean_skips {c d : Cursor} {val : Value} (read : c.parseBoolean = .ok (val, d)) :
    c.Skips d := by
  obtain ⟨rest, line, column⟩ := c
  unfold parseBoolean at read
  simp only at read
  split at read
  · rename_i word
    cases read
    refine ⟨4, ?_⟩
    obtain ⟨more, rfl⟩ : ∃ more, rest = [ch 't', ch 'r', ch 'u', ch 'e'] ++ more :=
      ⟨rest.drop 4, by rw [← word, List.take_append_drop]⟩
    rfl
  · split at read
    · rename_i word
      cases read
      refine ⟨5, ?_⟩
      obtain ⟨more, rfl⟩ : ∃ more, rest = [ch 'f', ch 'a', ch 'l', ch 's', ch 'e'] ++ more :=
        ⟨rest.drop 5, by rw [← word, List.take_append_drop]⟩
      rfl
    · cases read

theorem Moves.real {input : Text} {c d : Cursor} (move : Moves c d) (h : c.Real input) :
    d.Real input := by
  cases move with
  | advance => exact h.advance
  | boolean read =>
    obtain ⟨n, rfl⟩ := parseBoolean_skips read
    exact h.skip n

theorem Reached.start (input : Text) : Reached input (start input) :=
  Transition.Reachable.start rfl

theorem Reached.real {input : Text} {c : Cursor} (h : Reached input c) : c.Real input := by
  refine Transition.Reachable.invariant ?_ ?_ h
  · rintro c rfl
    exact Real.start input
  · exact fun c d real move => move.real real

/-! ## What a reader does -/

/-- What comes of reading: a value further on, or an error with the place of a state on the
way. -/
structure Places {α : Type} (c : Cursor) (r : Reading α) : Prop where
  leads : ∀ a d, r = .ok (a, d) → c.Leads d
  failed : ∀ e, r = .error (.failed e) →
    ∃ message d, c.Leads d ∧ e = createError message d.position

variable {α β : Type} {c d : Cursor} {r : Reading α}

theorem Leads.refl {c : Cursor} : c.Leads c := Relation.ReflTransGen.refl

theorem Leads.trans {c d e : Cursor} (h : c.Leads d) (k : d.Leads e) : c.Leads e :=
  Relation.ReflTransGen.trans h k

theorem leads_advance (c : Cursor) : c.Leads c.advance :=
  Relation.ReflTransGen.single (.advance c)

theorem leads_skip (c : Cursor) (n : Nat) : c.Leads (c.skip n) := by
  induction n generalizing c with
  | zero => exact .refl
  | succ n ih => exact (leads_advance c).trans (ih c.advance)

theorem Skips.leads {c d : Cursor} (h : c.Skips d) : c.Leads d := by
  obtain ⟨n, rfl⟩ := h
  exact leads_skip c n

theorem leads_advanceWhile (c : Cursor) (going : Cursor → Bool) :
    c.Leads (c.advanceWhile going) := (skips_advanceWhile c going).leads

theorem leads_skipWhitespace (c : Cursor) : c.Leads c.skipWhitespace := leads_advanceWhile ..

theorem leads_skipLines (n : Nat) (c : Cursor) : c.Leads (skipLines n c) := by
  induction n generalizing c with
  | zero => exact .refl
  | succ n ih =>
    unfold skipLines
    split
    · exact .refl
    have comment : c.Leads (if c.skipWhitespace.currentChar == ch '#' then
        c.skipWhitespace.skipComment else c.skipWhitespace) := by
      split
      · exact (leads_skipWhitespace c).trans (leads_advanceWhile _ _)
      · exact leads_skipWhitespace c
    simp only
    generalize (if c.skipWhitespace.currentChar == ch '#' then
      c.skipWhitespace.skipComment else c.skipWhitespace) = d at comment ⊢
    split
    · exact (comment.trans (leads_advance d)).trans (ih _)
    · exact comment

theorem leads_skipWhitespaceAndComments (c : Cursor) : c.Leads c.skipWhitespaceAndComments :=
  leads_skipLines ..

namespace Places

theorem failedAt {message : String} (h : c.Leads d) :
    c.Places (.error (.failed (createError message d.position)) : Reading α) := by
  constructor
  · intro a e read
    cases read
  · intro e stop
    cases stop
    exact ⟨message, d, h, rfl⟩

theorem fail (message : String) : c.Places (c.fail message : Reading α) := failedAt .refl

theorem outOfTurns : c.Places (.error .outOfTurns : Reading α) := by
  constructor
  · intro a e read
    cases read
  · intro e stop
    cases stop

theorem ok {a : α} (h : c.Leads d) : c.Places (.ok (a, d)) := by
  constructor
  · intro b e read
    cases read
    exact h
  · intro e stop
    cases stop

theorem ite {p : Prop} [Decidable p] {q : Reading α} (yes : p → c.Places q)
    (no : ¬p → c.Places r) : c.Places (if p then q else r) := by
  split
  · exact yes ‹_›
  · exact no ‹_›

theorem stop {reason : Stop} (h : c.Places (.error reason : Reading α)) :
    c.Places (.error reason : Reading β) := by
  constructor
  · intro a e read
    cases read
  · intro e same
    cases same
    exact h.failed e rfl

/-- A reader stops, and its caller with it, or comes to a state to go on from. -/
theorem cases (h : c.Places r) :
    (∃ reason, r = .error reason ∧ c.Places (.error reason : Reading β)) ∨
      ∃ a d, r = .ok (a, d) ∧ c.Leads d := by
  rcases r with reason | ⟨a, d⟩
  · exact Or.inl ⟨reason, rfl, h.stop⟩
  · exact Or.inr ⟨a, d, rfl, h.leads a d rfl⟩

theorem map (h : c.Places r) (f : α → β) :
    c.Places (r.map (fun read => (f read.1, read.2))) := by
  rcases r with reason | ⟨a, d⟩
  · exact h.stop
  · exact ok (h.leads a d rfl)

end Places

/-- What a reader further on does is done from here as well. -/
theorem Leads.read (h : c.Leads d) (k : d.Places r) : c.Places r := by
  constructor
  · exact fun a e read => h.trans (k.leads a e read)
  · intro e stop
    obtain ⟨message, f, leads, rfl⟩ := k.failed e stop
    exact ⟨message, f, h.trans leads, rfl⟩

end Cursor

end Dross
