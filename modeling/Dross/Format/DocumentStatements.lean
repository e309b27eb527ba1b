import Dross.Format.ValueProgress
import Dross.Format.TableDefinition

/-!
# Documents and their statements

What a document holds is the statements that are read from it. It is accepted when
all of it can be read and its statements define its tables, and only then.
-/

namespace Dross

namespace Cursor

/-- The statements that are read from here to the end. -/
inductive Spells : Cursor → List (Statement × Position) → Prop
  | done {c : Cursor} (ended : c.skipWhitespaceAndComments.atEnd = true) : Spells c []
  | next {c d : Cursor} {s : Statement × Position} {ss : List (Statement × Position)}
    (more : c.skipWhitespaceAndComments.atEnd = false)
    (read : c.skipWhitespaceAndComments.parseStatement = .ok (s, d)) (rest : Spells d ss) :
    Spells c (s :: ss)

variable {c e : Cursor} {s : Statement × Position} {ss ss' : List (Statement × Position)}
variable {D d : Document}

theorem Spells.unique (h : c.Spells ss) (h' : c.Spells ss') : ss = ss' := by
  induction h generalizing ss' with
  | done ended =>
    cases h' with
    | done => rfl
    | next more =>
      rw [ended] at more
      cases more
  | next more read rest ih =>
    cases h' with
    | done ended =>
      rw [more] at ended
      cases ended
    | next more' read' rest' =>
      rw [read] at read'
      obtain ⟨rfl, rfl⟩ := Prod.mk.inj (Except.ok.inj read')
      rw [ih rest']

theorem defineAll_cons {pos : Position} {s : Statement} :
    D.defineAll ((s, pos) :: ss) = (d, .ok ()) ↔
      ∃ D', D.define s pos = (D', .ok ()) ∧ D'.defineAll ss = (d, .ok ()) := by
  rw [Document.defineAll]
  rcases D.define s pos with ⟨D', e | u⟩
  · simp
  · simp

/-- What `parse_document` has read where it ends. -/
theorem parseDocument_spells {turns : Nat} (h : parseDocument turns c D = .ok (d, e)) :
    (∃ ss, c.Spells ss ∧ D.defineAll ss = (d, .ok ())) ∧ e.atEnd = true := by
  induction turns generalizing c D with
  | zero => cases h
  | succ turns ih =>
    rw [parseDocument] at h
    split at h
    · rename_i ended
      obtain ⟨rfl, rfl⟩ := Prod.mk.inj (Except.ok.inj h)
      exact ⟨⟨[], .done ended, rfl⟩, ended⟩
    · rename_i more
      split at h
      · cases h
      · rename_i s pos f read
        split at h
        · cases h
        · rename_i after defined
          obtain ⟨⟨ss, spells, all⟩, ended⟩ := ih h
          refine ⟨⟨(s, pos) :: ss, .next (by simpa using more) read spells, ?_⟩, ended⟩
          exact defineAll_cons.mpr ⟨after, defined, all⟩

/-- `parse_document` ends where the statements do. -/
theorem Spells.parseDocument (spells : c.Spells ss) (all : D.defineAll ss = (d, .ok ()))
    {turns : Nat}
    (enough : c.rest.length < turns) :
    ∃ e, Cursor.parseDocument turns c D = .ok (d, e) := by
  induction spells generalizing D turns with
  | @done c ended =>
    obtain ⟨turns, rfl⟩ := Nat.exists_eq_add_one_of_ne_zero (Nat.ne_zero_of_lt enough)
    obtain ⟨rfl, -⟩ := Prod.mk.inj all
    refine ⟨c.skipWhitespaceAndComments, ?_⟩
    rw [Cursor.parseDocument]
    simp only [if_pos ended]
  | @next c f s ss more read rest ih =>
    obtain ⟨turns, rfl⟩ := Nat.exists_eq_add_one_of_ne_zero (Nat.ne_zero_of_lt enough)
    obtain ⟨s, pos⟩ := s
    obtain ⟨after, defined, all⟩ := defineAll_cons.mp all
    have blanks := past_skipWhitespaceAndComments c
    have fewer := (blanks.trans ((parseStatement_reads _).past _ _ read)).length_lt
    obtain ⟨e, done⟩ := @ih after all turns (by omega)
    refine ⟨e, ?_⟩
    rw [Cursor.parseDocument]
    simp only [more, Bool.false_eq_true, if_false, read, defined, done]

/-- A document is accepted exactly when its statements can be read to its end and define its
tables, and gives what these are merged to. -/
theorem parse_ok_iff {input : Text} {result : Dictionary} :
    (start input).parse = .ok result ↔ ∃ ss d, (start input).Spells ss ∧
      Document.start.defineAll ss = (d, .ok ()) ∧ result = d.root.mergeTables := by
  rw [parse]
  constructor
  · intro h
    split at h
    · cases h
    · rename_i d e read
      obtain ⟨⟨ss, spells, all⟩, -⟩ := parseDocument_spells read
      simp only at h
      split at h
      · cases h
      · exact ⟨ss, d, spells, all, (Except.ok.inj h).symm⟩
  · rintro ⟨ss, d, spells, all, rfl⟩
    obtain ⟨e, read⟩ := spells.parseDocument all (Nat.lt_succ_self _)
    have ended := (parseDocument_spells read).2
    have nothing : e.skipWhitespaceAndComments.atEnd = true := by
      have shorter := (past_skipWhitespaceAndComments e).length_le
      rw [atEnd, List.isEmpty_iff] at ended ⊢
      rw [ended] at shorter
      exact List.eq_nil_of_length_eq_zero (Nat.le_zero.mp shorter)
    rw [read]
    simp only [nothing, Bool.not_true, Bool.false_eq_true, if_false]

end Cursor

/-! ## The tables of an accepted document -/

/-- The root of an accepted document shows what the placements of its statements say. -/
theorem Document.shows_of_defined {ss : List (Statement × Position)} {d : Document}
    (all : Document.start.defineAll ss = (d, .ok ())) :
    d.Shows (placeAt (placements (ss.map Prod.fst))) := by
  have follows := Document.defineAll_follows Document.Shows.start ss
  rw [show Document.start.current = [] from rfl] at follows
  cases o : Layout.defineAll (Layout.start, []) (ss.map Prod.fst) with
  | none =>
    rw [o, all] at follows
    obtain ⟨e, failed⟩ := follows
    cases failed
  | some r =>
    obtain ⟨-, rfl⟩ := (defineAll_iff _ _).mp o
    rw [o, all] at follows
    exact follows.2.1

theorem Document.defined_iff (ss : List (Statement × Position)) :
    (∃ d, Document.start.defineAll ss = (d, .ok ())) ↔ Rules (placements (ss.map Prod.fst)) := by
  rw [← Document.accepted_iff]
  constructor
  · rintro ⟨d, all⟩
    rw [all]
  · intro ok
    exact ⟨_, Prod.ext rfl ok⟩

end Dross
