import Dross.Format.DecimalText
import Dross.Format.LineEnds

/-!
# Readers and line ends

No reader of keys and scalars takes a line end, and none tells CR from LF where it
stops, so each agrees with itself on the two texts.
-/

namespace Dross

namespace Cursor

open Lockstep

variable {c d : Cursor}

/-! ## Strings and keys -/

theorem xdigitsAhead_iff {n : Nat} :
    c.xdigitsAhead n = true ↔ ∀ k < n, isAsciiXdigit (c.advance.peekChar k) = true := by
  simp [xdigitsAhead, peekChar_succ]

theorem appendEscape_newline (result : Text)
    (line : c.currentChar = ch '\n' ∨ c.currentChar = ch '\r') :
    c.appendEscape result = c.fail "Invalid escape sequence" := by
  have letters (b : UInt8) : b = ch '\n' ∨ b = ch '\r' → b ≠ ch '"' ∧ b ≠ ch '\\' ∧ b ≠ ch 'n' ∧
      b ≠ ch 't' ∧ b ≠ ch 'r' ∧ b ≠ ch 'b' ∧ b ≠ ch 'f' ∧ b ≠ ch 'u' ∧ b ≠ ch 'U' := by
    rintro (rfl | rfl)
    · decide
    · decide
  simp [appendEscape, letters _ line]

namespace Alike

/-- An escape ends in front of a byte that both can go on from. -/
theorem appendEscape (h : Alike c d) (result : Text) :
    Agree (fun e f => Alike e.advance f.advance) Stop.outOfTurns (c.appendEscape result)
      (d.appendEscape result) := by
  by_cases newline : c.currentChar = ch '\n'
  · rw [appendEscape_newline result (Or.inl newline)]
    have line : d.currentChar = ch '\n' ∨ d.currentChar = ch '\r' := by
      rcases h.current with equal | ⟨-, cr⟩
      · exact Or.inl (equal.trans newline)
      · exact Or.inr cr
    rw [appendEscape_newline result line]
    exact .failed
  have next := h.advance newline
  simp only [Cursor.appendEscape, h.same newline]
  refine .ite Iff.rfl (fun _ => .ok next) fun _ => ?_
  refine .ite Iff.rfl (fun _ => .ok next) fun _ => ?_
  refine .ite Iff.rfl (fun _ => .ok next) fun _ => ?_
  refine .ite Iff.rfl (fun _ => .ok next) fun _ => ?_
  refine .ite Iff.rfl (fun _ => .ok next) fun _ => ?_
  refine .ite Iff.rfl (fun _ => .ok next) fun _ => ?_
  refine .ite Iff.rfl (fun _ => .ok next) fun _ => ?_
  refine .ite Iff.rfl (fun _ => ?_) fun _ => .failed
  generalize (if c.currentChar = ch 'u' then 4 else 8) = digits
  obtain ⟨same, both⟩ := @ahead _ _ isAsciiXdigit (by decide) (by decide) next digits
  rw [← xdigitsAhead_iff, ← xdigitsAhead_iff] at same
  by_cases ahead : c.xdigitsAhead digits = true
  · obtain ⟨alike, taken⟩ := both (xdigitsAhead_iff.mp ahead)
    rw [rest_advance, rest_advance, ← List.drop_one, ← List.drop_one] at taken
    rw [ahead, same.mpr ahead, taken]
    refine .ite Iff.rfl (fun _ => .failed) fun _ => ?_
    refine .ite Iff.rfl (fun _ => .failed) fun _ => .ok ?_
    rw [skip_advance, skip_advance]
    exact alike
  · have ahead' := mt same.mp ahead
    rw [Bool.not_eq_true] at ahead ahead'
    rw [ahead, ahead']
    exact .failed

/-- A byte of a string is copied by both, or refused by both. -/
theorem copied {message : String} {read read' : Cursor → Text → Reading Text} (h : Alike c d)
    (result : Text) (goes : ∀ text, Alike c.advance d.advance →
      Agrees (read c.advance text) (read' d.advance text)) :
    Agrees (if isForbiddenControl c.currentChar then c.fail message
        else read c.advance (result ++ [c.currentChar]))
      (if isForbiddenControl d.currentChar then d.fail message
        else read' d.advance (result ++ [d.currentChar])) := by
  have control : isForbiddenControl d.currentChar = isForbiddenControl c.currentChar :=
    h.byte (by decide)
  rw [control]
  refine .ite Iff.rfl (fun _ => .failed) fun allowed => ?_
  have other : c.currentChar ≠ ch '\n' := by
    intro newline
    rw [newline] at allowed
    exact allowed (by decide)
  rw [h.same other]
  exact goes _ (h.advance other)

/-- Both end at the closing quote, or neither. -/
theorem closed {message : String} {quote : UInt8} (h : Alike c d) (result : Text)
    (inLine : quote ≠ ch '\n') :
    Agrees (if c.currentChar != quote then c.fail message else .ok (result, c.advance))
      (if c.currentChar != quote then d.fail message else .ok (result, d.advance)) := by
  refine .ite Iff.rfl (fun _ => .failed) fun closing => .ok (h.advance ?_)
  rw [not_not.mp (mt bne_iff_ne.mpr closing)]
  exact inLine

theorem basicString {kind : String} (h : Alike c d) (result : Text) (n m : Nat) :
    Agrees (basicString kind n c result) (basicString kind m d result) := by
  induction n generalizing c d m result with
  | zero => exact .left
  | succ n ih =>
    cases m with
    | zero => exact .right
    | succ m =>
      have quote : (d.currentChar != ch '"') = (c.currentChar != ch '"') :=
        h.byte (p := fun b => b != ch '"') (by decide)
      rw [Cursor.basicString, Cursor.basicString, h.atEnd, quote]
      refine .ite Iff.rfl (fun _ => ?_) fun _ => ?_
      · refine .ite (h.is (by decide) (by decide)) (fun back => ?_) fun _ => ?_
        · have next := h.advance (by rw [back]; decide)
          simp only [next.atEnd]
          refine .ite Iff.rfl (fun _ => .failed) fun _ => ?_
          have escape := next.appendEscape result
          generalize c.advance.appendEscape result = r at escape ⊢
          generalize d.advance.appendEscape result = r' at escape ⊢
          cases escape with
          | left => exact .left
          | right => exact .right
          | failed => exact .failed
          | ok still => exact ih still _ m
        · exact h.copied result fun text next => ih next text m
      · exact h.closed result (by decide)

theorem literalString {kind : String} (h : Alike c d) (result : Text) (n m : Nat) :
    Agrees (literalString kind n c result) (literalString kind m d result) := by
  induction n generalizing c d m result with
  | zero => exact .left
  | succ n ih =>
    cases m with
    | zero => exact .right
    | succ m =>
      have quote : (d.currentChar != ch '\'') = (c.currentChar != ch '\'') :=
        h.byte (p := fun b => b != ch '\'') (by decide)
      rw [Cursor.literalString, Cursor.literalString, h.atEnd, quote]
      refine .ite Iff.rfl (fun _ => ?_) fun _ => h.closed result (by decide)
      exact h.copied result fun text next => ih next text m

theorem parseBasicString (h : Alike c d) (kind : String) :
    Agrees (c.parseBasicString kind) (d.parseBasicString kind) := by
  rw [Cursor.parseBasicString, Cursor.parseBasicString,
    h.byte (p := fun b => b != ch '"') (by decide)]
  by_cases opened : c.currentChar = ch '"'
  · rw [opened]
    exact (h.advance (by rw [opened]; decide)).basicString [] _ _
  · have other : (c.currentChar != ch '"') = true := by simpa using opened
    rw [other]
    exact .failed

theorem parseLiteralString (h : Alike c d) (kind : String) (opened : c.currentChar = ch '\'') :
    Agrees (c.parseLiteralString kind) (d.parseLiteralString kind) :=
  (h.advance (by rw [opened]; decide)).literalString [] _ _

theorem parseKey (h : Alike c d) : Agrees c.parseKey d.parseKey := by
  rw [Cursor.parseKey, Cursor.parseKey]
  refine .ite (h.is (by decide) (by decide)) (fun _ => h.parseBasicString _) fun _ => ?_
  refine .ite (h.is (by decide) (by decide)) (fun opened => h.parseLiteralString _ opened)
    fun _ => ?_
  rw [h.byte (p := isBareKeyChar) (by decide)]
  refine .ite Iff.rfl (fun _ => ?_) fun _ => .failed
  obtain ⟨taken, still⟩ := h.takeWhile (p := isBareKeyChar) (by decide) (by decide)
  rw [parseBareKey, parseBareKey, taken]
  exact .ok still

end Alike

theorem peekChar_skip (c : Cursor) (m n : Nat) : c.peekChar (m + n) = (c.skip m).peekChar n := by
  induction m generalizing c with
  | zero => rw [Nat.zero_add, skip]
  | succ m ih => rw [Nat.succ_add, peekChar_succ, ih, skip]

theorem digitsAhead_succ (c : Cursor) (offset count : Nat) :
    c.digitsAhead (offset + 1) count = c.advance.digitsAhead offset count := by
  rw [digitsAhead, digitsAhead]
  simp only [Nat.succ_add, peekChar_succ]

theorem parseString_eq (c : Cursor) : c.parseString =
    if c.peekChar 1 == c.currentChar && c.peekChar 2 == c.currentChar then
      c.parseMultiLineString c.currentChar
        (if c.currentChar = ch '"' then "multi-line string" else "multi-line literal string")
    else if c.currentChar = ch '"' then c.parseBasicString "string"
    else c.parseLiteralString "literal string" := rfl

/-- Three quotes where the clean text has none. -/
theorem not_triple {quote : UInt8} (clean : Clean c.rest)
    (known : quote = ch '"' ∨ quote = ch '\'') : ¬ ∀ k < 3, (c.peekChar k == quote) = true := by
  intro all
  have first := all 0 (by decide)
  have second := all 1 (by decide)
  have third := all 2 (by decide)
  simp only [beq_iff_eq] at first second third
  have nonzero : (0 : UInt8) ≠ quote := by
    rcases known with rfl | rfl
    · decide
    · decide
  apply clean.noTriple quote known
  simp only [peekChar] at first second third
  rcases here : c.rest with _ | ⟨x, _ | ⟨y, _ | ⟨z, more⟩⟩⟩
  · rw [here] at first
    exact absurd first nonzero
  · rw [here] at second
    exact absurd second nonzero
  · rw [here] at third
    exact absurd third nonzero
  · rw [here] at first second third
    obtain rfl : x = quote := first
    obtain rfl : y = x := second
    obtain rfl : z = y := third
    exact ⟨[], more, rfl⟩

namespace Alike

theorem parseString (h : Alike c d) (quote : c.currentChar = ch '"' ∨ c.currentChar = ch '\'') :
    Agrees c.parseString d.parseString := by
  have newline : c.currentChar ≠ ch '\n' := by
    rcases quote with same | same
    · rw [same]
      decide
    · rw [same]
      decide
  have single := not_triple h.clean quote
  obtain ⟨same, -⟩ := @ahead _ _ (fun b => b == c.currentChar)
    (by rcases quote with same | same <;> rw [same] <;> decide)
    (by rcases quote with same | same <;> rw [same] <;> decide) h 3
  have single' := mt same.mp single
  have apart {e : Cursor} (current : e.currentChar = c.currentChar)
      (single : ¬ ∀ k < 3, (e.peekChar k == c.currentChar) = true) :
      (e.peekChar 1 == c.currentChar && e.peekChar 2 == c.currentChar) = false := by
    rw [← Bool.not_eq_true, Bool.and_eq_true]
    rintro ⟨second, third⟩
    apply single
    intro k less
    match k, less with
    | 0, _ => rw [peekChar_zero, current, beq_self_eq_true]
    | 1, _ => exact second
    | 2, _ => exact third
  rw [parseString_eq, parseString_eq, h.same newline, apart rfl single,
    apart (h.same newline) single']
  refine .ite Iff.rfl (fun no => by cases no) fun _ => ?_
  refine .ite Iff.rfl (fun _ => h.parseBasicString _) fun other => ?_
  exact h.parseLiteralString _ (quote.resolve_left other)

/-! ## Words and dates -/

theorem isWord {w : Text} (cr : ch '\r' ∉ w) (lf : ch '\n' ∉ w) (three : w.length = 3)
    (h : Alike c d) : (d.rest.take 3 == w && ! isBareKeyChar (d.peekChar 3)) =
      (c.rest.take 3 == w && ! isBareKeyChar (c.peekChar 3)) := by
  obtain ⟨same, both⟩ := h.word cr lf
  rw [three] at same both
  by_cases taken : c.rest.take 3 = w
  · have after : isBareKeyChar (d.peekChar 3) = isBareKeyChar (c.peekChar 3) := by
      rw [show 3 = 3 + 0 from rfl, peekChar_skip, peekChar_skip, peekChar_zero, peekChar_zero]
      exact (both taken).byte (by decide)
    rw [same.mpr taken, taken, after]
  · rw [beq_eq_false_iff_ne.mpr taken, beq_eq_false_iff_ne.mpr (mt same.mp taken)]
    rfl

theorem atInfOrNan (h : Alike c d) : d.atInfOrNan = c.atInfOrNan := by
  have sign : (if d.currentChar = ch '+' || d.currentChar = ch '-' then 1 else 0) =
      (if c.currentChar = ch '+' || c.currentChar = ch '-' then 1 else 0) :=
    h.byte (p := fun b => if b = ch '+' || b = ch '-' then 1 else 0) (by decide)
  rw [Cursor.atInfOrNan, Cursor.atInfOrNan]
  simp only [sign]
  have next : Alike (c.skip (if c.currentChar = ch '+' || c.currentChar = ch '-' then 1 else 0))
      (d.skip (if c.currentChar = ch '+' || c.currentChar = ch '-' then 1 else 0)) := by
    split
    · rename_i signed
      apply h.advance
      intro newline
      rw [newline] at signed
      exact absurd signed (by decide)
    · exact h
  generalize (if c.currentChar = ch '+' || c.currentChar = ch '-' then 1 else 0) = start at next ⊢
  rw [← rest_skip, ← rest_skip, peekChar_skip, peekChar_skip, next.isWord (by decide) (by decide) rfl,
    next.isWord (by decide) (by decide) rfl]

theorem parseBoolean (h : Alike c d) : Agrees c.parseBoolean d.parseBoolean := by
  obtain ⟨yes, yes'⟩ := h.word (w := [ch 't', ch 'r', ch 'u', ch 'e']) (by decide) (by decide)
  obtain ⟨no, no'⟩ := h.word (w := [ch 'f', ch 'a', ch 'l', ch 's', ch 'e']) (by decide) (by decide)
  rw [Cursor.parseBoolean, Cursor.parseBoolean]
  refine .ite yes (fun taken => .ok ?_) fun _ => .ite no (fun taken => .ok ?_) fun _ => .failed
  · have next := yes' taken
    exact ⟨by simpa using next.clean, by simpa using next.text⟩
  · have next := no' taken
    exact ⟨by simpa using next.clean, by simpa using next.text⟩

theorem digitsAhead (h : Alike c d) (n : Nat) : d.digitsAhead 0 n = c.digitsAhead 0 n := by
  obtain ⟨same, -⟩ := @ahead _ _ isDigit (by decide) (by decide) h n
  rw [Bool.eq_iff_iff, digitsAhead_iff, digitsAhead_iff]
  simpa using same

theorem afterDigits (h : Alike c d) {n : Nat} (digits : c.digitsAhead 0 n = true) :
    Alike (c.skip n) (d.skip n) ∧ d.rest.take n = c.rest.take n := by
  rw [digitsAhead_iff] at digits
  exact (@ahead _ _ isDigit (by decide) (by decide) h n).2 (by simpa using digits)

theorem afterDigits_byte (h : Alike c d) {n : Nat} {b : UInt8} (cr : b ≠ ch '\r')
    (lf : b ≠ ch '\n') : (d.digitsAhead 0 n && d.peekChar n == b) =
      (c.digitsAhead 0 n && c.peekChar n == b) := by
  rw [h.digitsAhead]
  by_cases digits : c.digitsAhead 0 n = true
  · have next := (h.afterDigits digits).1.is cr lf
    rw [← peekChar_zero, ← peekChar_zero, ← peekChar_skip, ← peekChar_skip, Nat.add_zero] at next
    rw [digits, Bool.true_and, Bool.true_and, Bool.eq_iff_iff, beq_iff_eq, beq_iff_eq]
    exact next
  · rw [Bool.not_eq_true] at digits
    rw [digits]
    rfl

theorem atDate (h : Alike c d) : d.atDate = c.atDate := h.afterDigits_byte (by decide) (by decide)

theorem atTime (h : Alike c d) : d.atTime = c.atTime := h.afterDigits_byte (by decide) (by decide)

end Alike

/-! ## Datetimes -/

/-- Both take the same text and stay alike, or neither takes it. -/
inductive Taken : Option (Cursor × Text) → Option (Cursor × Text) → Prop
  | none : Taken none none
  | some {c d text} (still : Alike c d) : Taken (some (c, text)) (some (d, text))

namespace Taken

variable {o o' : Option (Cursor × Text)}

theorem bind {next : Cursor × Text → Option (Cursor × Text)} (h : Taken o o')
    (step : ∀ c d text, Alike c d → Taken (next (c, text)) (next (d, text))) :
    Taken (o.bind next) (o'.bind next) := by
  cases h with
  | none => exact .none
  | some still => exact step _ _ _ still

theorem takeDigits (count : Nat) (h : Alike c d) (text : Text) :
    Taken (takeDigits count (c, text)) (takeDigits count (d, text)) := by
  simp only [Cursor.takeDigits, h.digitsAhead]
  by_cases digits : c.digitsAhead 0 count = true
  · obtain ⟨next, taken⟩ := h.afterDigits digits
    rw [digits, taken]
    exact .some next
  · rw [Bool.not_eq_true] at digits
    rw [digits]
    exact .none

theorem takeChar {byte : UInt8} (cr : byte ≠ ch '\r') (lf : byte ≠ ch '\n') (h : Alike c d)
    (text : Text) :
    Taken (takeChar byte (c, text)) (takeChar byte (d, text)) := by
  simp only [Cursor.takeChar]
  by_cases here : c.currentChar = byte
  · rw [if_pos here, if_pos ((h.is cr lf).mpr here)]
    exact .some (h.advance (by rwa [here]))
  · rw [if_neg here, if_neg (mt (h.is cr lf).mp here)]
    exact .none

theorem takeDate (h : Alike c d) (text : Text) :
    Taken (takeDate (c, text)) (takeDate (d, text)) := by
  refine (takeDigits 4 h _).bind fun _ _ _ h => ?_
  refine (takeChar (by decide) (by decide) h _).bind fun _ _ _ h => ?_
  refine (takeDigits 2 h _).bind fun _ _ _ h => ?_
  refine (takeChar (by decide) (by decide) h _).bind fun _ _ _ h => ?_
  exact takeDigits 2 h _

theorem takeTime (h : Alike c d) (text : Text) :
    Taken (takeTime (c, text)) (takeTime (d, text)) := by
  refine (takeDigits 2 h _).bind fun _ _ _ h => ?_
  refine (takeChar (by decide) (by decide) h _).bind fun _ _ _ h => ?_
  refine (takeDigits 2 h _).bind fun _ _ _ h => ?_
  refine (takeChar (by decide) (by decide) h _).bind fun _ _ _ h => ?_
  exact takeDigits 2 h _

theorem takeOffset (h : Alike c d) (sign : c.currentChar = ch '+' ∨ c.currentChar = ch '-')
    (text : Text) :
    Taken (takeOffset (c, text)) (takeOffset (d, text)) := by
  have plain : c.currentChar ≠ ch '\r' ∧ c.currentChar ≠ ch '\n' := by
    rcases sign with same | same
    · rw [same]
      decide
    · rw [same]
      decide
  simp only [Cursor.takeOffset, h.same plain.2]
  refine (takeChar plain.1 plain.2 h _).bind fun _ _ _ h => ?_
  refine (takeDigits 2 h _).bind fun _ _ _ h => ?_
  refine (takeChar (by decide) (by decide) h _).bind fun _ _ _ h => ?_
  exact takeDigits 2 h _

theorem takeFraction (h : Alike c d) (text : Text) :
    (takeFraction (d, text)).2 = (takeFraction (c, text)).2 ∧
    Alike (takeFraction (c, text)).1 (takeFraction (d, text)).1 := by
  simp only [Cursor.takeFraction]
  have point : Taken (Cursor.takeChar (ch '.') (c, text)) (Cursor.takeChar (ch '.') (d, text)) :=
    takeChar (by decide) (by decide) h text
  generalize Cursor.takeChar (ch '.') (c, text) = o at point ⊢
  generalize Cursor.takeChar (ch '.') (d, text) = o' at point ⊢
  cases point with
  | none => exact ⟨rfl, h⟩
  | some still =>
    obtain ⟨taken, after⟩ := still.takeWhile (p := isDigit) (by decide) (by decide)
    simp only [taken]
    exact ⟨trivial, after⟩

end Taken

namespace Alike

theorem finishDatetime (h : Alike c d) (start start' : Position) (text : Text) :
    Agrees (finishDatetime start (c, text)) (finishDatetime start' (d, text)) := by
  simp only [Cursor.finishDatetime]
  cases Timestamp.fromString text with
  | none => exact .failed
  | some t => exact .ok h

/-- A time comes after the date. -/
theorem timeFollows (h : Alike c d) :
    (d.currentChar == ch 'T' || d.currentChar == ch 't' ||
        (d.currentChar == ch ' ' && d.digitsAhead 1 2 && d.peekChar 3 == ch ':')) =
      (c.currentChar == ch 'T' || c.currentChar == ch 't' ||
        (c.currentChar == ch ' ' && c.digitsAhead 1 2 && c.peekChar 3 == ch ':')) := by
  rw [h.byte (p := fun b => b == ch 'T') (by decide), h.byte (p := fun b => b == ch 't') (by decide),
    h.byte (p := fun b => b == ch ' ') (by decide)]
  by_cases blank : c.currentChar = ch ' '
  · have next := (h.advance (by rw [blank]; decide)).atTime
    rw [Cursor.atTime, Cursor.atTime, ← digitsAhead_succ, ← digitsAhead_succ, ← peekChar_succ,
      ← peekChar_succ] at next
    rw [Bool.and_assoc, next, Bool.and_assoc]
  · rw [beq_eq_false_iff_ne.mpr blank, Bool.false_and, Bool.false_and, Bool.false_and,
      Bool.false_and]

theorem parseDatetime (h : Alike c d) : Agrees c.parseDatetime d.parseDatetime := by
  simp only [Cursor.parseDatetime, h.atTime]
  refine .ite Iff.rfl (fun _ => .failed) fun _ => ?_
  have date := Taken.takeDate h []
  generalize takeDate (c, []) = o at date ⊢
  generalize takeDate (d, []) = o' at date ⊢
  cases date with
  | none => exact .failed
  | @some c d text h =>
    simp only [h.timeFollows]
    refine .ite Iff.rfl (fun follows => ?_) fun _ => .failed
    have newline : c.currentChar ≠ ch '\n' := by
      intro same
      have letters : ch '\n' ≠ ch 'T' ∧ ch '\n' ≠ ch 't' ∧ ch '\n' ≠ ch ' ' := by decide
      simp [same, letters] at follows
    have time := Taken.takeTime (h.advance newline) (text ++ [ch 'T'])
    generalize takeTime (c.advance, text ++ [ch 'T']) = o at time ⊢
    generalize takeTime (d.advance, text ++ [ch 'T']) = o' at time ⊢
    cases time with
    | none => exact .failed
    | @some c d text h =>
      obtain ⟨taken, still⟩ := Taken.takeFraction h text
      simp only [taken]
      generalize (takeFraction (c, text)).2 = gathered
      generalize (takeFraction (c, text)).1 = c at still ⊢
      generalize (takeFraction (d, text)).1 = d at still ⊢
      rw [still.byte (p := fun b => b == ch 'Z' || b == ch 'z') (by decide),
        still.byte (p := fun b => b == ch '+' || b == ch '-') (by decide)]
      refine .ite Iff.rfl (fun zulu => ?_) fun _ => .ite Iff.rfl (fun sign => ?_) fun _ => .failed
      · apply finishDatetime (still.advance _)
        intro same
        rw [same] at zulu
        exact absurd zulu (by decide)
      · have offset := Taken.takeOffset still (by simpa using sign) gathered
        generalize takeOffset (c, gathered) = o at offset ⊢
        generalize takeOffset (d, gathered) = o' at offset ⊢
        cases offset with
        | none => exact .failed
        | some still => exact finishDatetime still _ _ _

end Alike

/-! ## Numbers -/

theorem inRun_line (base : Nat) : inRun base (ch '\r') = false ∧ inRun base (ch '\n') = false := by
  have value (b : UInt8) (digit : isDigit b = false) (lower : (ch 'a' ≤ b && b ≤ ch 'f') = false)
      (upper : (ch 'A' ≤ b && b ≤ ch 'F') = false) : isDigitOf base b = false := by
    rw [isDigitOf, digitValue]
    simp only [digit, lower, upper]
    rfl
  rw [inRun, inRun, value (ch '\r') (by decide) (by decide) (by decide),
    value (ch '\n') (by decide) (by decide) (by decide)]
  decide

namespace Alike

theorem takeSign (h : Alike c d) (text : Text) :
    (d.takeSign text).2 = (c.takeSign text).2 ∧ Alike (c.takeSign text).1 (d.takeSign text).1 := by
  rw [Cursor.takeSign, Cursor.takeSign]
  by_cases sign : c.currentChar = ch '+' ∨ c.currentChar = ch '-'
  · have newline : c.currentChar ≠ ch '\n' := by
      rcases sign with same | same
      · rw [same]
        decide
      · rw [same]
        decide
    have taken : (decide (c.currentChar = ch '+') || decide (c.currentChar = ch '-')) = true := by
      simpa using sign
    rw [h.same newline, taken]
    exact ⟨rfl, h.advance newline⟩
  · have none : (decide (c.currentChar = ch '+') || decide (c.currentChar = ch '-')) = false := by
      simpa using sign
    have none' : (decide (d.currentChar = ch '+') || decide (d.currentChar = ch '-')) = false := by
      rw [← none]
      exact h.byte (p := fun b => decide (b = ch '+') || decide (b = ch '-')) (by decide)
    rw [none, none']
    exact ⟨rfl, h⟩

theorem atIntegerPrefix (h : Alike c d) : d.atIntegerPrefix = c.atIntegerPrefix := by
  rw [Cursor.atIntegerPrefix, Cursor.atIntegerPrefix,
    h.byte (p := fun b => b == ch '0') (by decide)]
  by_cases zero : c.currentChar = ch '0'
  · have next := h.advance (by rw [zero]; decide)
    have letter := next.byte (p := fun b => b == ch 'x' || b == ch 'o' || b == ch 'b') (by decide)
    rw [← peekChar_zero, ← peekChar_zero, ← peekChar_succ, ← peekChar_succ] at letter
    rw [letter]
  · rw [beq_eq_false_iff_ne.mpr zero, Bool.false_and, Bool.false_and]

theorem digitsOf (h : Alike c d) (base : Nat) (text : Text) :
    Agrees (c.digitsOf base text) (d.digitsOf base text) := by
  obtain ⟨cr, lf⟩ := inRun_line base
  obtain ⟨taken, still⟩ := h.takeWhile cr lf
  have run : digitRun base d.rest = digitRun base c.rest := taken
  by_cases separated : Separated base (digitRun base c.rest)
  · rw [digitsOf_separated separated, digitsOf_separated (by rwa [run]), run]
    exact .ok still
  · obtain ⟨e, failed⟩ := digitsOf_misplaced separated text
    obtain ⟨f, failed'⟩ := digitsOf_misplaced (by rwa [run]) text
    rw [failed, failed']
    exact .failed

theorem parsePrefixedInteger (h : Alike c d) (here : c.atIntegerPrefix = true) :
    Agrees c.parsePrefixedInteger d.parsePrefixedInteger := by
  rw [Cursor.atIntegerPrefix, Bool.and_eq_true, beq_iff_eq] at here
  have next := h.advance (by rw [here.1]; decide)
  have newline : c.advance.currentChar ≠ ch '\n' := by
    intro same
    rw [← peekChar_zero, ← peekChar_succ] at same
    rw [same] at here
    exact absurd here.2 (by decide)
  have letter : d.peekChar 1 = c.peekChar 1 := by
    rw [peekChar_succ, peekChar_succ, peekChar_zero, peekChar_zero]
    exact next.same newline
  simp only [Cursor.parsePrefixedInteger, letter]
  generalize (if c.peekChar 1 = ch 'x' then 16 else if c.peekChar 1 = ch 'o' then 8 else 2) = base
  have digits : Agrees ((c.skip 2).digitsOf base []) ((d.skip 2).digitsOf base []) :=
    (next.advance newline).digitsOf base []
  generalize (c.skip 2).digitsOf base [] = r at digits ⊢
  generalize (d.skip 2).digitsOf base [] = r' at digits ⊢
  cases digits with
  | left => exact .left
  | right => exact .right
  | failed => exact .failed
  | @ok a e f still =>
    obtain ⟨digits, count⟩ := a
    refine .ite Iff.rfl (fun _ => .failed) fun _ => ?_
    generalize sumChunks _ _ _ _ _ _ = sum
    cases sum with
    | error e => exact .failed
    | ok result => exact .ok still

theorem readFraction (h : Alike c d) (text : Text) :
    Agrees (c.readFraction text) (d.readFraction text) := by
  rw [Cursor.readFraction, Cursor.readFraction]
  refine .ite (h.is (by decide) (by decide)) (fun point => ?_) fun _ => .ok h
  have digits := (h.advance (by rw [point]; decide)).digitsOf 10 (text ++ [ch '.'])
  generalize c.advance.digitsOf 10 (text ++ [ch '.']) = r at digits ⊢
  generalize d.advance.digitsOf 10 (text ++ [ch '.']) = r' at digits ⊢
  cases digits with
  | left => exact .left
  | right => exact .right
  | failed => exact .failed
  | ok still => exact .ite Iff.rfl (fun _ => .failed) fun _ => .ok still

theorem readExponent (h : Alike c d) (text : Text) :
    Agrees (c.readExponent text) (d.readExponent text) := by
  rw [Cursor.readExponent, Cursor.readExponent,
    h.byte (p := fun b => decide (b = ch 'e') || decide (b = ch 'E')) (by decide)]
  refine .ite Iff.rfl (fun mark => ?_) fun _ => .ok h
  have newline : c.currentChar ≠ ch '\n' := by
    intro same
    rw [same] at mark
    exact absurd mark (by decide)
  rw [h.same newline]
  obtain ⟨taken, signed⟩ := (h.advance newline).takeSign (text ++ [c.currentChar])
  simp only [taken]
  generalize (c.advance.takeSign (text ++ [c.currentChar])).2 = gathered
  generalize (c.advance.takeSign (text ++ [c.currentChar])).1 = e at signed ⊢
  generalize (d.advance.takeSign (text ++ [c.currentChar])).1 = f at signed ⊢
  have digits := signed.digitsOf 10 gathered
  generalize e.digitsOf 10 gathered = r at digits ⊢
  generalize f.digitsOf 10 gathered = r' at digits ⊢
  cases digits with
  | left => exact .left
  | right => exact .right
  | failed => exact .failed
  | ok still => exact .ite Iff.rfl (fun _ => .failed) fun _ => .ok still

theorem parseNumber (h : Alike c d) : Agrees c.parseNumber d.parseNumber := by
  rw [Cursor.parseNumber, Cursor.parseNumber, h.atIntegerPrefix]
  refine .ite Iff.rfl (fun here => h.parsePrefixedInteger here) fun _ => ?_
  obtain ⟨taken, unsigned⟩ := h.takeSign []
  simp only [taken]
  generalize (c.takeSign []).2 = sign
  generalize (c.takeSign []).1 = c at unsigned ⊢
  generalize (d.takeSign []).1 = d at unsigned ⊢
  rw [unsigned.atIntegerPrefix, unsigned.byte (p := fun b => b == ch '0') (by decide)]
  refine .ite Iff.rfl (fun _ => .failed) fun _ => ?_
  generalize (c.currentChar == ch '0') = leadingZero
  have digits := unsigned.digitsOf 10 sign
  generalize c.digitsOf 10 sign = r at digits ⊢
  generalize d.digitsOf 10 sign = r' at digits ⊢
  cases digits with
  | left => exact .left
  | right => exact .right
  | failed => exact .failed
  | @ok a e f still =>
    obtain ⟨text, count⟩ := a
    refine .ite Iff.rfl (fun _ => .failed) fun _ => .ite Iff.rfl (fun _ => .failed) fun _ => ?_
    have fraction := still.readFraction text
    generalize e.readFraction text = r at fraction ⊢
    generalize f.readFraction text = r' at fraction ⊢
    cases fraction with
    | left => exact .left
    | right => exact .right
    | failed => exact .failed
    | @ok text e f still =>
      have exponent := still.readExponent text
      simp only
      generalize e.readExponent text = r at exponent ⊢
      generalize f.readExponent text = r' at exponent ⊢
      cases exponent with
      | left => exact .left
      | right => exact .right
      | failed => exact .failed
      | ok still => exact .ite Iff.rfl (fun _ => .failed) fun _ => .ok still

end Alike

end Cursor

end Dross
