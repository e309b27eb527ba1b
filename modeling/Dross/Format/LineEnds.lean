import Dross.Format.ReaderProgress
import Dross.Library.Lockstep

/-!
# Line ends of either kind

A text and the one with a CR before each of its line feeds are read side by side. The
parsers are alike while the second has the other's rest with those CRs, or is behind
the CR of the line feed both are at.
-/

namespace Dross

/-- Every LF becomes CR LF. -/
def crlf (t : Text) : Text := t.flatMap (fun c => if c = ch '\n' then [ch '\r', ch '\n'] else [c])

/-- No CR, and no quote that is there three times in a row. -/
structure Clean (t : Text) : Prop where
  noCr : ch '\r' ∉ t
  noTriple : ∀ quote, quote = ch '"' ∨ quote = ch '\'' → ¬ [quote, quote, quote] <:+: t

theorem crlf_newline (t : Text) : crlf (ch '\n' :: t) = ch '\r' :: ch '\n' :: crlf t := by
  rw [crlf, List.flatMap_cons, if_pos rfl]
  rfl

theorem crlf_cons {b : UInt8} (other : b ≠ ch '\n') (t : Text) : crlf (b :: t) = b :: crlf t := by
  rw [crlf, List.flatMap_cons, if_neg other]
  rfl

theorem Clean.suffix {t u : Text} (h : Clean t) (suffix : u <:+ t) : Clean u :=
  ⟨fun mem => h.noCr (suffix.subset mem),
    fun quote known triple => h.noTriple quote known (triple.trans suffix.isInfix)⟩

namespace Cursor

/-- Where the parsers of the two texts are. -/
structure Alike (c d : Cursor) : Prop where
  clean : Clean c.rest
  text : d.rest = crlf c.rest ∨
    ∃ more, c.rest = ch '\n' :: more ∧ d.rest = ch '\n' :: crlf more

theorem peekChar_zero (c : Cursor) : c.peekChar 0 = c.currentChar := by
  rw [peekChar, currentChar]
  cases c.rest <;> rfl

theorem peekChar_succ (c : Cursor) (k : Nat) : c.peekChar (k + 1) = c.advance.peekChar k := by
  rw [peekChar, peekChar, rest_advance]
  cases c.rest <;> rfl

theorem atCrLf_of_clean {c : Cursor} (clean : Clean c.rest) : c.atCrLf = false := by
  have other : c.currentChar ≠ ch '\r' := by
    intro same
    rcases here : c.rest with _ | ⟨b, more⟩
    · rw [currentChar_of_nil here] at same
      cases same
    · rw [currentChar_of_at here] at same
      exact clean.noCr (by rw [here, same]; exact List.mem_cons_self)
  simp [atCrLf, other]

namespace Alike

variable {c d : Cursor}

theorem start {t : Text} (clean : Clean t) : Alike (start t) (start (crlf t)) := ⟨clean, Or.inl rfl⟩

/-- At the end, at a line feed, or at the same byte. -/
theorem places (h : Alike c d) : (c.rest = [] ∧ d.rest = []) ∨
    (∃ more, c.rest = ch '\n' :: more ∧
      (d.rest = ch '\r' :: ch '\n' :: crlf more ∨ d.rest = ch '\n' :: crlf more)) ∨
    ∃ b more, b ≠ ch '\n' ∧ b ≠ ch '\r' ∧ c.rest = b :: more ∧ d.rest = b :: crlf more := by
  rcases h.text with text | ⟨more, here, there⟩
  · rcases here : c.rest with _ | ⟨b, more⟩
    · rw [here] at text
      exact Or.inl ⟨rfl, text⟩
    · right
      rw [here] at text
      by_cases newline : b = ch '\n'
      · subst newline
        rw [crlf_newline] at text
        exact Or.inl ⟨more, rfl, Or.inl text⟩
      · rw [crlf_cons newline] at text
        refine Or.inr ⟨b, more, newline, ?_, rfl, text⟩
        rintro rfl
        exact h.clean.noCr (by rw [here]; exact List.mem_cons_self)
  · exact Or.inr (Or.inl ⟨more, here, Or.inr there⟩)

theorem current (h : Alike c d) : d.currentChar = c.currentChar ∨
    (c.currentChar = ch '\n' ∧ d.currentChar = ch '\r') := by
  rcases h.places with ⟨here, there⟩ | ⟨more, here, there | there⟩ | ⟨b, more, -, -, here, there⟩
  · exact Or.inl (by rw [currentChar_of_nil here, currentChar_of_nil there])
  · exact Or.inr ⟨currentChar_of_at here, currentChar_of_at there⟩
  · exact Or.inl (by rw [currentChar_of_at here, currentChar_of_at there])
  · exact Or.inl (by rw [currentChar_of_at here, currentChar_of_at there])

/-- A test that does not tell CR from LF. -/
theorem byte {α : Type} {p : UInt8 → α} (h : Alike c d) (same : p (ch '\r') = p (ch '\n')) :
    p d.currentChar = p c.currentChar := by
  rcases h.current with equal | ⟨newline, cr⟩
  · rw [equal]
  · rw [newline, cr, same]

theorem same (h : Alike c d) (other : c.currentChar ≠ ch '\n') : d.currentChar = c.currentChar :=
  h.current.resolve_right (fun both => other both.1)

theorem is (h : Alike c d) {b : UInt8} (cr : b ≠ ch '\r') (lf : b ≠ ch '\n') :
    d.currentChar = b ↔ c.currentChar = b := by
  rcases h.current with equal | ⟨newline, there⟩
  · rw [equal]
  · rw [newline, there]
    exact ⟨fun absurd => (cr absurd.symm).elim, fun absurd => (lf absurd.symm).elim⟩

theorem atEnd (h : Alike c d) : d.atEnd = c.atEnd := by
  rcases h.places with ⟨here, there⟩ | ⟨more, here, there | there⟩ | ⟨b, more, -, -, here, there⟩
  · rw [Cursor.atEnd, Cursor.atEnd, here, there]
  · rw [atEnd_of_at here, atEnd_of_at there]
  · rw [atEnd_of_at here, atEnd_of_at there]
  · rw [atEnd_of_at here, atEnd_of_at there]

/-- Both go on, from anything but a line end. -/
theorem advance (h : Alike c d) (other : c.currentChar ≠ ch '\n') : Alike c.advance d.advance := by
  refine ⟨h.clean.suffix (past_advance c).suffix, ?_⟩
  rcases h.places with ⟨here, there⟩ | ⟨more, here, -⟩ | ⟨b, more, -, -, here, there⟩
  · left
    rw [rest_advance, rest_advance, here, there]
    rfl
  · exact absurd (currentChar_of_at here) other
  · left
    rw [rest_advance_of_at here, rest_advance_of_at there]

/-- Both take their line feed. -/
theorem newline (h : Alike c d) (here : c.currentChar = ch '\n') (there : d.currentChar = ch '\n') :
    Alike c.advance d.advance := by
  refine ⟨h.clean.suffix (past_advance c).suffix, Or.inl ?_⟩
  rcases h.places with ⟨rest, -⟩ | ⟨more, rest, behind | behind⟩ | ⟨b, more, other, -, rest, -⟩
  · rw [currentChar_of_nil rest] at here
    cases here
  · rw [currentChar_of_at behind] at there
    cases there
  · rw [rest_advance_of_at rest, rest_advance_of_at behind]
  · exact absurd ((currentChar_of_at rest).symm.trans here) other

/-! ## Several bytes -/

/-- A run of bytes that no line end is among. -/
theorem takeWhile {p : UInt8 → Bool} (cr : p (ch '\r') = false) (lf : p (ch '\n') = false)
    (h : Alike c d) : d.rest.takeWhile p = c.rest.takeWhile p ∧
      Alike (c.skip (c.rest.takeWhile p).length) (d.skip (c.rest.takeWhile p).length) := by
  generalize length : c.rest.length = n
  induction n generalizing c d with
  | zero =>
    have here : c.rest = [] := List.eq_nil_of_length_eq_zero length
    rcases h.places with ⟨-, there⟩ | ⟨more, rest, -⟩ | ⟨b, more, -, -, rest, -⟩
    · simpa [here, there, skip] using h
    · rw [here] at rest
      cases rest
    · rw [here] at rest
      cases rest
  | succ n ih =>
    rcases h.places with ⟨here, there⟩ | ⟨more, here, there | there⟩ | ⟨b, more, other, -, here, there⟩
    · simpa [here, there, skip] using h
    · simpa [here, there, skip, cr, lf] using h
    · simpa [here, there, skip, lf] using h
    · by_cases inside : p b = true
      · have next := h.advance (by rwa [currentChar_of_at here])
        have after := rest_advance_of_at here
        obtain ⟨taken, alike⟩ := ih next (by
          rw [after]
          rw [here] at length
          exact Nat.succ.inj length)
        rw [after, rest_advance_of_at there] at taken
        rw [after] at alike
        rw [here, there, List.takeWhile_cons_of_pos inside, List.takeWhile_cons_of_pos inside, taken]
        exact ⟨rfl, alike⟩
      · simpa [here, there, skip, inside] using h

/-- The bytes ahead pass a test that line ends do not. -/
theorem ahead {p : UInt8 → Bool} (cr : p (ch '\r') = false) (lf : p (ch '\n') = false)
    (h : Alike c d) (n : Nat) :
    ((∀ k < n, p (d.peekChar k) = true) ↔ ∀ k < n, p (c.peekChar k) = true) ∧
      ((∀ k < n, p (c.peekChar k) = true) →
        Alike (c.skip n) (d.skip n) ∧ d.rest.take n = c.rest.take n) := by
  induction n generalizing c d with
  | zero => simpa [skip] using h
  | succ n ih =>
    have split (e : Cursor) : (∀ k < n + 1, p (e.peekChar k) = true) ↔
        p e.currentChar = true ∧ ∀ k < n, p (e.advance.peekChar k) = true := by
      rw [Nat.forall_lt_succ_left]
      simp only [peekChar_zero, peekChar_succ]
    rw [split, split, h.byte (cr.trans lf.symm)]
    by_cases first : p c.currentChar = true
    · have other : c.currentChar ≠ ch '\n' := by
        intro same
        rw [same, lf] at first
        cases first
      obtain ⟨same, both⟩ := ih (h.advance other)
      refine ⟨and_congr_right fun _ => same, fun all => ?_⟩
      obtain ⟨alike, taken⟩ := both all.2
      refine ⟨alike, ?_⟩
      rcases h.places with ⟨here, there⟩ | ⟨more, here, -⟩ | ⟨b, more, -, -, here, there⟩
      · rw [here, there]
      · exact absurd (currentChar_of_at here) other
      · rw [rest_advance_of_at here, rest_advance_of_at there] at taken
        rw [here, there, List.take_succ_cons, List.take_succ_cons, taken]
    · simp [first]

/-- A word without line ends stands in front of both, or of neither. -/
theorem word {w : Text} (cr : ch '\r' ∉ w) (lf : ch '\n' ∉ w) (h : Alike c d) :
    (d.rest.take w.length = w ↔ c.rest.take w.length = w) ∧
      (c.rest.take w.length = w → Alike (c.skip w.length) (d.skip w.length)) := by
  induction w generalizing c d with
  | nil => simpa [skip] using h
  | cons a w ih =>
    obtain ⟨notCr, cr⟩ := not_or.mp (mt List.mem_cons.mpr cr)
    obtain ⟨notLf, lf⟩ := not_or.mp (mt List.mem_cons.mpr lf)
    rcases h.places with ⟨here, there⟩ | ⟨more, here, there | there⟩ | ⟨b, more, other, -, here, there⟩
    · simp [here, there]
    · simp [here, there, notCr, notLf]
    · simp [here, there, notLf]
    · obtain ⟨same, both⟩ := ih cr lf (h.advance (by rwa [currentChar_of_at here]))
      rw [rest_advance_of_at here, rest_advance_of_at there] at same
      rw [rest_advance_of_at here] at both
      rw [here, there, List.length_cons, List.take_succ_cons, List.take_succ_cons]
      simp only [List.cons.injEq]
      exact ⟨and_congr_right fun _ => same, fun all => both all.2⟩

/-! ## Blanks and comments -/

/-- What the blanks lead to: parsers that are alike and at the same byte. -/
structure Level (c d : Cursor) : Prop where
  alike : Alike c d
  current : d.currentChar = c.currentChar

/-- Both stop, unless the second has the CR of a line end to take. -/
theorem stop {going : Cursor → Bool} (h : Alike c d) (stops : going c = false)
    (same : d.currentChar = c.currentChar → going d = false)
    (takes : d.atCrLf = true → going d = true)
    (newline : ∀ e : Cursor, e.currentChar = ch '\n' → going e = false) :
    Level (c.advanceWhile going) (d.advanceWhile going) := by
  rw [advanceWhile_stop stops]
  rcases h.current with equal | ⟨here, there⟩
  · rw [advanceWhile_stop (same equal)]
    exact ⟨h, equal⟩
  · rcases h.places with ⟨rest, -⟩ | ⟨more, rest, behind | behind⟩ | ⟨b, more, other, -, rest, -⟩
    · rw [currentChar_of_nil rest] at here
      cases here
    · have crLf : d.atCrLf = true := by
        simp [atCrLf, currentChar_of_at behind, peekChar, behind]
      have after := rest_advance_of_at behind
      have current := currentChar_of_at after
      rw [advanceWhile_step behind (takes crLf), advanceWhile_stop (newline _ current)]
      exact ⟨⟨h.clean, Or.inr ⟨more, rest, after⟩⟩, current.trans here.symm⟩
    · rw [currentChar_of_at behind] at there
      cases there
    · exact absurd ((currentChar_of_at rest).symm.trans here) other

/-- A loop that takes bytes other than line ends from both, and CRs from the second. -/
theorem advanceWhile {going : Cursor → Bool} {p : UInt8 → Bool}
    (decides : ∀ e : Cursor, e.atCrLf = false → going e = p e.currentChar)
    (takes : ∀ e : Cursor, e.atCrLf = true → going e = true)
    (nothing : p 0 = false) (newline : p (ch '\n') = false) (h : Alike c d) :
    Level (c.advanceWhile going) (d.advanceWhile going) := by
  have stopsAt (e : Cursor) (here : e.currentChar = ch '\n') : going e = false := by
    have plain : e.atCrLf = false := by simp [atCrLf, here, show ch '\n' ≠ ch '\r' by decide]
    rw [decides e plain, here, newline]
  have plain (e : Cursor) (clean : Clean e.rest) := decides e (atCrLf_of_clean clean)
  have stops {c d : Cursor} (h : Alike c d) (stop : p c.currentChar = false) :
      Level (c.advanceWhile going) (d.advanceWhile going) := by
    apply h.stop
    · rw [plain c h.clean, stop]
    · intro equal
      have noCrLf : d.atCrLf = false := by
        have clean := atCrLf_of_clean h.clean
        rcases h.places with ⟨here, there⟩ | ⟨more, here, -⟩ | ⟨b, more, -, noCr, here, there⟩
        · rw [atCrLf, currentChar_of_nil there]
          rfl
        · rw [atCrLf, equal, currentChar_of_at here]
          rfl
        · simp [atCrLf, currentChar_of_at there, noCr]
      rw [decides d noCrLf, equal, stop]
    · exact takes d
    · exact stopsAt
  generalize length : c.rest.length = n
  induction n generalizing c d with
  | zero =>
    apply stops h
    rw [currentChar_of_nil (List.eq_nil_of_length_eq_zero length), nothing]
  | succ n ih =>
    by_cases go : p c.currentChar = true
    · rcases h.places with ⟨here, -⟩ | ⟨more, here, -⟩ | ⟨b, more, other, noCr, here, there⟩
      · rw [here] at length
        cases length
      · rw [currentChar_of_at here, newline] at go
        cases go
      · have noCrLf : d.atCrLf = false := by simp [atCrLf, currentChar_of_at there, noCr]
        have goC := (plain c h.clean).trans go
        have goD : going d = true := by
          rw [decides d noCrLf, currentChar_of_at there, ← currentChar_of_at here, go]
        rw [advanceWhile_step here goC, advanceWhile_step there goD]
        apply ih (h.advance (by rwa [currentChar_of_at here]))
        rw [rest_advance_of_at here]
        rw [here] at length
        exact Nat.succ.inj length
    · exact stops h (by simpa using go)

theorem skipWhitespace (h : Alike c d) : Level c.skipWhitespace d.skipWhitespace := by
  apply @advanceWhile _ _ _ (fun b => b == ch ' ' || b == ch '\t') _ _ (by decide) (by decide) h
  · intro e noCrLf
    simp [noCrLf]
  · intro e crLf
    simp [crLf]

theorem skipComment (h : Alike c d) : Level c.skipComment d.skipComment := by
  apply @advanceWhile _ _ _ (fun b => b != ch '\n' && ! isForbiddenControl b) _ _ (by decide)
    (by decide) h
  · intro e noCrLf
    simp [noCrLf]
  · intro e crLf
    have here : e.currentChar = ch '\r' := by
      rw [atCrLf, Bool.and_eq_true, beq_iff_eq] at crLf
      exact crLf.1
    simp [crLf, here, show ch '\r' ≠ ch '\n' by decide]

/-- A blank line, or the last of them, up to its line feed or to what is on it. -/
theorem line (h : Alike c d) :
    Level (if c.skipWhitespace.currentChar == ch '#' then c.skipWhitespace.skipComment
        else c.skipWhitespace)
      (if d.skipWhitespace.currentChar == ch '#' then d.skipWhitespace.skipComment
        else d.skipWhitespace) := by
  have blanks := h.skipWhitespace
  rw [blanks.current]
  split
  · exact blanks.alike.skipComment
  · exact blanks

theorem past_line (c : Cursor) : c.Past 0 (if c.skipWhitespace.currentChar == ch '#' then
    c.skipWhitespace.skipComment else c.skipWhitespace) := by
  split
  · exact (past_skipWhitespace c).trans (past_skipComment _)
  · exact past_skipWhitespace c

theorem skipLines {n m : Nat} (h : Alike c d) (hn : c.rest.length < n) (hm : d.rest.length < m) :
    Level (skipLines n c) (skipLines m d) := by
  induction n generalizing c d m with
  | zero => exact absurd hn (Nat.not_lt_zero _)
  | succ n ih =>
    obtain ⟨m, rfl⟩ := Nat.exists_eq_add_one_of_ne_zero (Nat.ne_zero_of_lt hm)
    rw [Cursor.skipLines, Cursor.skipLines, h.atEnd]
    by_cases ended : c.atEnd = true
    · rw [if_pos ended, if_pos ended]
      refine ⟨h, ?_⟩
      have ended' := h.atEnd.trans ended
      rw [Cursor.atEnd, List.isEmpty_iff] at ended ended'
      rw [currentChar_of_nil ended, currentChar_of_nil ended']
    · have level := h.line
      have past := past_line c
      have past' := past_line d
      rw [if_neg ended, if_neg ended]
      simp only
      generalize (if c.skipWhitespace.currentChar == ch '#' then c.skipWhitespace.skipComment
        else c.skipWhitespace) = e at level past ⊢
      generalize (if d.skipWhitespace.currentChar == ch '#' then d.skipWhitespace.skipComment
        else d.skipWhitespace) = f at level past' ⊢
      rw [level.current]
      by_cases newline : e.currentChar = ch '\n'
      · have there := level.current.trans newline
        have fewer := (past.trans (past_advance_of newline (by decide))).length_lt
        have fewer' := (past'.trans (past_advance_of there (by decide))).length_lt
        rw [if_pos (beq_iff_eq.mpr newline), if_pos (beq_iff_eq.mpr newline)]
        exact ih (level.alike.newline newline there) (by omega) (by omega)
      · rw [if_neg (by simpa using newline), if_neg (by simpa using newline)]
        exact level

theorem skipWhitespaceAndComments (h : Alike c d) :
    Level c.skipWhitespaceAndComments d.skipWhitespaceAndComments :=
  h.skipLines (Nat.lt_succ_self _) (Nat.lt_succ_self _)

end Alike

/-- The two parsers fail, or read the same and stay alike. -/
abbrev Agrees {α : Type} (r r' : Reading α) : Prop := Lockstep.Agree Alike Stop.outOfTurns r r'

theorem Alike.expectLineEnd {c d : Cursor} (h : Alike c d) :
    Agrees c.expectLineEnd d.expectLineEnd := by
  have level := h.skipWhitespace
  rw [Cursor.expectLineEnd, Cursor.expectLineEnd]
  simp only [level.current, level.alike.atEnd]
  exact .ite Iff.rfl (fun _ => .failed) fun _ => .ok level.alike

end Cursor

end Dross
