import Dross.Format.ScalarReader
import Dross.Library.Numeral

/-!
# Runs of digits

The digits of a base are read up to the first byte that is neither one of them nor an
underscore, and an underscore is taken only between two of them.
-/

namespace Dross

def isDigitOf (base : Nat) (c : UInt8) : Bool := (digitValue c base).isSome

/-- The bytes a run of digits is made of. -/
def inRun (base : Nat) (c : UInt8) : Bool := isDigitOf base c || c == ch '_'

/-- The run of digits and underscores that a text starts with. -/
def digitRun (base : Nat) (t : Text) : Text := t.takeWhile (inRun base)

/-- The digits of a run. -/
def runDigits (base : Nat) (w : Text) : Text := w.filter (isDigitOf base)

/-- A digit stands at a place of a run. -/
def DigitAt (base : Nat) (w : Text) (place : Nat) : Prop :=
  ∃ c, w[place]? = some c ∧ isDigitOf base c = true

/-- Every underscore stands between two digits. -/
def Separated (base : Nat) (w : Text) : Prop :=
  ∀ place, w[place]? = some (ch '_') →
    (∃ before, place = before + 1 ∧ DigitAt base w before) ∧ DigitAt base w (place + 1)

/-- Whether the underscores stand between digits, from left to right, and with what comes
before the run. -/
def separatedAfter (base : Nat) : Bool → Text → Bool
  | _, [] => true
  | digitBefore, c :: w =>
    if c = ch '_' then
      digitBefore && w.head?.any (isDigitOf base) && separatedAfter base false w
    else separatedAfter base (isDigitOf base c) w

section Runs

variable {base : Nat}

theorem not_isDigitOf_underscore : isDigitOf base (ch '_') = false := by
  simp [isDigitOf, digitValue, show isDigit (ch '_') = false by decide,
    show (ch '_' ≤ ch 'f') = True by decide, show (ch 'a' ≤ ch '_') = False by decide,
    show (ch '_' ≤ ch 'F') = False by decide]

theorem digitValue_zero : digitValue 0 base = none := by
  simp [digitValue, show isDigit 0 = false by decide, show (ch 'a' ≤ 0) = False by decide,
    show (ch 'A' ≤ 0) = False by decide]

theorem digitValue_isNone (c : UInt8) : (digitValue c base).isNone = ! isDigitOf base c := by
  simp [isDigitOf]

theorem isDigitOf_ne_underscore {c : UInt8} (digit : isDigitOf base c = true) : c ≠ ch '_' := by
  rintro rfl
  rw [not_isDigitOf_underscore] at digit
  cases digit

theorem digitValue_lt {c : UInt8} {d : Nat} (value : digitValue c base = some d) : d < base := by
  rw [digitValue, Option.filter_eq_some_iff] at value
  simpa using value.2

theorem digitAt_zero {w : Text} : DigitAt base w 0 ↔ w.head?.any (isDigitOf base) = true := by
  cases w with
  | nil => simp [DigitAt]
  | cons c w => simp [DigitAt]

theorem digitAt_succ {c : UInt8} {w : Text} {place : Nat} :
    DigitAt base (c :: w) (place + 1) ↔ DigitAt base w place := by
  rw [DigitAt, DigitAt, List.getElem?_cons_succ]

/-- Every underscore of what is left stands between digits. -/
theorem separatedAfter_iff {digitBefore : Bool} {w : Text} :
    separatedAfter base digitBefore w = true ↔
      ∀ place, w[place]? = some (ch '_') →
        ((place = 0 ∧ digitBefore = true) ∨ ∃ before, place = before + 1 ∧ DigitAt base w before) ∧
          DigitAt base w (place + 1) := by
  induction w generalizing digitBefore with
  | nil => simp [separatedAfter]
  | cons c w ih =>
    have later (place : Nat) : (∃ before, place + 1 = before + 1 ∧ DigitAt base (c :: w) before) ↔
        (place = 0 ∧ isDigitOf base c = true) ∨
          ∃ before, place = before + 1 ∧ DigitAt base w before := by
      cases place with
      | zero => simp [DigitAt]
      | succ place =>
        simp only [Nat.add_right_cancel_iff, exists_eq_left', digitAt_succ]
        simp
    have split : (∀ place, (c :: w)[place]? = some (ch '_') →
        ((place = 0 ∧ digitBefore = true) ∨
          ∃ before, place = before + 1 ∧ DigitAt base (c :: w) before) ∧
            DigitAt base (c :: w) (place + 1)) ↔
        (c = ch '_' → digitBefore = true ∧ DigitAt base w 0) ∧
          separatedAfter base (isDigitOf base c) w = true := by
      rw [ih, ← Nat.and_forall_add_one]
      simp only [later, digitAt_succ, List.getElem?_cons_zero, List.getElem?_cons_succ]
      simp
    rw [split, separatedAfter]
    by_cases underscore : c = ch '_'
    · simp [underscore, digitAt_zero, not_isDigitOf_underscore, and_assoc]
    · simp [underscore]

theorem separatedAfter_false {w : Text} :
    separatedAfter base false w = true ↔ Separated base w := by
  rw [separatedAfter_iff]
  simp [Separated]

theorem runDigits_cons_digit {c : UInt8} {w : Text} (digit : isDigitOf base c = true) :
    runDigits base (c :: w) = c :: runDigits base w := List.filter_cons_of_pos digit

theorem runDigits_cons_underscore {w : Text} :
    runDigits base (ch '_' :: w) = runDigits base w :=
  List.filter_cons_of_neg (by simp [not_isDigitOf_underscore])

/-- A run that holds a digit. -/
theorem runDigits_ne_nil {w : Text} : runDigits base w ≠ [] ↔ ∃ place, DigitAt base w place := by
  rw [runDigits, ne_eq, List.filter_eq_nil_iff]
  simp only [not_forall, DigitAt, List.mem_iff_getElem?]
  constructor
  · rintro ⟨c, ⟨place, here⟩, digit⟩
    exact ⟨place, c, here, by simpa using digit⟩
  · rintro ⟨place, c, here, digit⟩
    exact ⟨c, ⟨place, here⟩, by simpa using digit⟩

theorem digitRun_cons {c : UInt8} {t : Text} (inside : inRun base c = true) :
    digitRun base (c :: t) = c :: digitRun base t := List.takeWhile_cons_of_pos inside

theorem digitRun_stop {c : UInt8} {t : Text} (outside : inRun base c = false) :
    digitRun base (c :: t) = [] := List.takeWhile_cons_of_neg (by simp [outside])

/-- Whether a digit follows is the same in a text and in its run. -/
theorem digitRun_head (t : Text) :
    (digitRun base t).head?.any (isDigitOf base) = isDigitOf base (t.headD 0) := by
  cases t with
  | nil => simp [digitRun, isDigitOf, digitValue_zero]
  | cons c t =>
    by_cases inside : inRun base c = true
    · simp [digitRun_cons inside]
    · have outside : inRun base c = false := by simpa using inside
      have notDigit : isDigitOf base c = false := by
        rw [inRun, Bool.or_eq_false_iff] at outside
        exact outside.1
      simp [digitRun_stop outside, notDigit]

end Runs

namespace Cursor

section Steps

variable {base turns count : Nat} {c : Cursor} {text rest : Text}

theorem readDigits_digit {byte : UInt8} (here : c.rest = byte :: rest)
    (digit : isDigitOf base byte = true) :
    readDigits base (turns + 1) c text count =
      readDigits base turns c.advance (text ++ [byte]) (count + 1) := by
  simp [readDigits, currentChar_of_at here, isDigitOf_ne_underscore digit, digitValue_isNone, digit]

/-- An underscore is taken with the digit that comes after it. -/
theorem readDigits_between {second : UInt8} (here : c.rest = ch '_' :: second :: rest)
    (some : 0 < count) (following : isDigitOf base second = true) :
    readDigits base (turns + 1) c text count =
      readDigits base turns (c.skip 2) (text ++ [second]) (count + 1) := by
  have next : c.peekChar 1 = second := by simp [peekChar, here]
  have second := currentChar_of_at (rest_advance_of_at here)
  simp [readDigits, currentChar_of_at here, next, Nat.ne_of_gt some, digitValue_isNone, following,
    second, show c.skip 2 = c.advance.advance from rfl]

theorem readDigits_misplaced (here : c.rest = ch '_' :: rest)
    (misplaced : ¬ (0 < count ∧ isDigitOf base (rest.headD 0) = true)) :
    readDigits base (turns + 1) c text count =
      c.fail "An underscore must be between digits" := by
  have next : c.peekChar 1 = rest.headD 0 := by
    cases rest with
    | nil => simp [peekChar, here]
    | cons byte rest => simp [peekChar, here]
  rw [not_and] at misplaced
  rcases Nat.eq_zero_or_pos count with none | some
  · simp [readDigits, currentChar_of_at here, none]
  · have notDigit : isDigitOf base (rest.headD 0) = false := by simpa using misplaced some
    simp only [readDigits, currentChar_of_at here, next, digitValue_isNone, notDigit]
    simp

theorem readDigits_stop {byte : UInt8} (current : c.currentChar = byte)
    (outside : inRun base byte = false) :
    readDigits base (turns + 1) c text count = .ok ((text, count), c) := by
  rw [inRun, Bool.or_eq_false_iff, beq_eq_false_iff_ne] at outside
  simp [readDigits, current, outside, digitValue_isNone]

end Steps

/-- What `read_digits` makes of a run. -/
theorem readDigits_eq {base turns count : Nat} {c : Cursor} {text : Text}
    (enough : c.rest.length < turns) :
    if separatedAfter base (decide (0 < count)) (digitRun base c.rest) = true then
      readDigits base turns c text count =
        .ok ((text ++ runDigits base (digitRun base c.rest),
          count + (runDigits base (digitRun base c.rest)).length),
          c.skip (digitRun base c.rest).length)
    else ∃ d : Cursor, readDigits base turns c text count =
      d.fail "An underscore must be between digits" := by
  induction turns generalizing c text count with
  | zero => exact absurd enough (Nat.not_lt_zero _)
  | succ turns ih =>
    rcases here : c.rest with _ | ⟨byte, rest⟩
    · have outside : inRun base 0 = false := by simp [inRun, isDigitOf, digitValue_zero]; decide
      simp [readDigits_stop (currentChar_of_nil here) outside, digitRun, separatedAfter, runDigits,
        skip]
    · have left : rest.length < turns := by
        rw [here] at enough
        exact Nat.lt_of_succ_lt_succ enough
      by_cases digit : isDigitOf base byte = true
      · have inside : inRun base byte = true := by simp [inRun, digit]
        have after := rest_advance_of_at here
        have read := @ih (count + 1) c.advance (text ++ [byte]) (by rwa [after])
        rw [after] at read
        rw [readDigits_digit here digit, digitRun_cons inside, separatedAfter,
          if_neg (isDigitOf_ne_underscore digit), runDigits_cons_digit digit, digit]
        simpa [Nat.add_assoc, Nat.add_comm 1] using read
      by_cases underscore : byte = ch '_'
      · subst underscore
        have inside : inRun base (ch '_') = true := by simp [inRun]
        rw [digitRun_cons inside, separatedAfter, if_pos rfl, digitRun_head]
        by_cases between : 0 < count ∧ isDigitOf base (rest.headD 0) = true
        · obtain ⟨some, following⟩ := between
          rcases rest with _ | ⟨second, rest⟩
          · rw [List.headD_nil, isDigitOf, digitValue_zero] at following
            cases following
          rw [List.headD_cons] at following
          have inRunSecond : inRun base second = true := by simp [inRun, following]
          have after : (c.skip 2).rest = rest := by simp [here]
          have read := @ih (count + 1) (c.skip 2) (text ++ [second])
            (by rw [after]; exact Nat.lt_of_succ_lt left)
          rw [after] at read
          rw [readDigits_between here some following, runDigits_cons_underscore,
            digitRun_cons inRunSecond, separatedAfter, if_neg (isDigitOf_ne_underscore following),
            runDigits_cons_digit following]
          simpa [some, following, Nat.add_assoc, Nat.add_comm 1, Nat.add_comm 2] using read
        · rw [if_neg]
          · exact ⟨c, readDigits_misplaced here between⟩
          · simp only [Bool.and_eq_true, decide_eq_true_eq]
            exact fun all => between all.1
      · have outside : inRun base byte = false := by
          simp [inRun, Bool.eq_false_iff.mpr digit, underscore]
        simp [readDigits_stop (currentChar_of_at here) outside, digitRun_stop outside,
          separatedAfter, runDigits, skip]

section Whole

variable {base : Nat} {c : Cursor}

/-- The digits of a run in which underscores only separate digits. -/
theorem digitsOf_separated (separated : Separated base (digitRun base c.rest)) (text : Text) :
    c.digitsOf base text = .ok ((text ++ runDigits base (digitRun base c.rest),
      (runDigits base (digitRun base c.rest)).length), c.skip (digitRun base c.rest).length) := by
  have read := @readDigits_eq base (c.rest.length + 1) 0 c text (Nat.lt_succ_self _)
  rw [decide_eq_false (Nat.lt_irrefl 0), if_pos (separatedAfter_false.mpr separated),
    Nat.zero_add] at read
  exact read

theorem digitsOf_misplaced (misplaced : ¬ Separated base (digitRun base c.rest)) (text : Text) :
    ∃ d : Cursor, c.digitsOf base text = d.fail "An underscore must be between digits" := by
  have read := @readDigits_eq base (c.rest.length + 1) 0 c text (Nat.lt_succ_self _)
  rwa [decide_eq_false (Nat.lt_irrefl 0),
    if_neg (fun after => misplaced (separatedAfter_false.mp after))] at read

end Whole

end Cursor

end Dross
