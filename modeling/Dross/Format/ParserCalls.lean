import Dross.Format.TableRefinement
import Dross.Format.ValueProgress
import Dross.Type.TextCalls
import Mathlib.Data.List.GetD

/-!
# The parser never throws

The functions of the parser with the calls that throw outside their domain: wherever the
parser stands, and for every document it comes to, they return what they return without.
The text left to read is the input from the current position, so an offset within it is one
within the input.
-/

namespace Dross

open OrderedMap

namespace Throwing

/-- `_input.compare(_pos + offset, count, word) == 0` -/
def compare (text : Text) (offset count : Nat) (word : Text) : Option Bool :=
  (substr text offset count).map (fun part => part == word)

/-- `std::stoul(text, nullptr, 16)`, of text without blanks, a sign or a prefix. The least that
an unsigned long holds is 32 bits. -/
def stoul (text : Text) : Option Nat :=
  let digits := text.takeWhile isAsciiXdigit
  if digits = [] ∨ 2 ^ 32 ≤ hexadecimal digits then none else some (hexadecimal digits)

def appendEscape (c : Cursor) (result : Text) : Option (Reading Text) :=
  let letter := c.currentChar
  if letter = ch '"' then some (.ok (result ++ [ch '"'], c))
  else if letter = ch '\\' then some (.ok (result ++ [ch '\\'], c))
  else if letter = ch 'n' then some (.ok (result ++ [ch '\n'], c))
  else if letter = ch 't' then some (.ok (result ++ [ch '\t'], c))
  else if letter = ch 'r' then some (.ok (result ++ [ch '\r'], c))
  else if letter = ch 'b' then some (.ok (result ++ [0x08], c))
  else if letter = ch 'f' then some (.ok (result ++ [0x0C], c))
  else if letter = ch 'u' || letter = ch 'U' then
    let digits := if letter = ch 'u' then 4 else 8
    if ! c.xdigitsAhead digits then some (c.fail "Invalid unicode escape")
    else do
      let text ← substr c.rest 1 digits
      let codePoint ← stoul text
      if (0xD800 ≤ codePoint && codePoint ≤ 0xDFFF) || codePoint > 0x10FFFF then
        some (c.fail "Invalid unicode escape")
      else some (.ok (result ++ encodeUtf8 codePoint, c.skip digits))
  else some (c.fail "Invalid escape sequence")

def atInfOrNan (c : Cursor) : Option Bool := do
  let start := if c.currentChar = ch '+' || c.currentChar = ch '-' then 1 else 0
  let inf ← compare c.rest start 3 [ch 'i', ch 'n', ch 'f']
  if inf && ! isBareKeyChar (c.peekChar (start + 3)) then some true
  else
    let nan ← compare c.rest start 3 [ch 'n', ch 'a', ch 'n']
    some (nan && ! isBareKeyChar (c.peekChar (start + 3)))

/-- Whether a word comes next, with its length checked first. -/
def wordAhead (c : Cursor) (word : Text) : Option Bool :=
  if word.length ≤ c.rest.length then (substr c.rest 0 word.length).map (fun part => part == word)
  else some false

def parseBoolean (c : Cursor) : Option (Reading Value) := do
  let yes ← wordAhead c [ch 't', ch 'r', ch 'u', ch 'e']
  if yes then
    some (.ok (.boolean true, { c with rest := c.rest.drop 4, column := c.column + 4 }))
  else
    let no ← wordAhead c [ch 'f', ch 'a', ch 'l', ch 's', ch 'e']
    if no then
      some (.ok (.boolean false, { c with rest := c.rest.drop 5, column := c.column + 5 }))
    else some (c.fail "Invalid boolean value")

/-- The loop of `open_table`, whose `elements.back()` has no result without an element. -/
def openTableParts (table : TableNode) (key : Text) (rest : List Text) (array : Bool)
    (headerStart : Position) : Option (TableNode × Except Error Path) :=
  if contains table.pairs key then
    some (table, .error (createError "Table header names a key that is not a table" headerStart))
  else
    let child := (find table.tables key).getD
      { TableNode.fresh with array := array && rest.isEmpty }
    match rest with
    | [] =>
      let opened := child.nameTable array headerStart
      some (table.setTable key opened.1, opened.2.map ([.key key] ++ ·))
    | next :: rest =>
      if child.array then
        child.elements.getLast?.bind (fun last =>
          (openTableParts last next rest array headerStart).map (fun opened =>
            (table.setTable key { child with elements := child.elements.dropLast ++ [opened.1] },
              opened.2.map ([.key key, .element (child.elements.length - 1)] ++ ·))))
      else
        (openTableParts child next rest array headerStart).map (fun opened =>
          (table.setTable key opened.1, opened.2.map ([.key key] ++ ·)))

def openTable (root : TableNode) (keyPath : KeyPath) (array : Bool) (headerStart : Position) :
    Option (TableNode × Except Error Path) :=
  openTableParts root keyPath.first keyPath.rest array headerStart

/-! ## Within the domain -/

theorem stoul_digits {text : Text} (digits : ∀ c ∈ text, isAsciiXdigit c = true)
    (nonempty : text ≠ []) (short : text.length ≤ 8) : stoul text = some (hexadecimal text) := by
  have all : text.takeWhile isAsciiXdigit = text := List.takeWhile_eq_self_iff.mpr digits
  have small : ∀ d ∈ text.map (fun c => (digitValue c 16).getD 0), d < 16 := by
    intro d mem
    obtain ⟨c, -, rfl⟩ := List.mem_map.mp mem
    rcases value : digitValue c 16 with _ | n
    · exact Nat.succ_pos _
    · exact of_decide_eq_true (Option.filter_eq_some_iff.mp value).2
  have bound := Numeral.value_lt (by decide) small
  rw [List.length_map] at bound
  have wide := Nat.pow_le_pow_right (show 16 > 0 by omega) short
  unfold stoul
  rw [all, if_neg]
  rintro (nil | large)
  · exact nonempty nil
  · unfold hexadecimal at large
    omega

/-- Digits that are ahead are there to be taken. -/
theorem xdigits_inside {c : Cursor} {digits : Nat} (ahead : c.xdigitsAhead digits = true) :
    digits ≤ (c.rest.drop 1).length ∧
      ∀ b ∈ (c.rest.drop 1).take digits, isAsciiXdigit b = true := by
  have each : ∀ k < digits, isAsciiXdigit (c.peekChar (k + 1)) = true := by
    intro k inside
    exact List.all_eq_true.mp ahead k (List.mem_range.mpr inside)
  have there : ∀ k < digits, k + 1 < c.rest.length := by
    intro k inside
    by_contra beyond
    have zero : c.peekChar (k + 1) = 0 := by
      rw [Cursor.peekChar, List.getD_eq_default _ _ (Nat.le_of_not_lt beyond)]
    have digit := each k inside
    rw [zero] at digit
    cases digit
  constructor
  · rw [List.length_drop]
    cases digits with
    | zero => exact Nat.zero_le _
    | succ n =>
      have last := there n (Nat.lt_succ_self n)
      omega
  · intro b mem
    obtain ⟨k, inside, rfl⟩ := List.mem_take_iff_getElem.mp mem
    have bound := Nat.lt_of_lt_of_le inside (Nat.min_le_left _ _)
    have digit := each k bound
    rw [Cursor.peekChar, List.getD_eq_getElem _ _ (there k bound)] at digit
    simpa only [List.getElem_drop, Nat.add_comm 1 k] using digit

theorem ite_some {α : Type} {p : Prop} [Decidable p] {a b : α} {r : Option α}
    (other : ¬p → r = some b) : (if p then some a else r) = some (if p then a else b) := by
  split
  · rfl
  · exact other ‹_›

theorem appendEscape_eq (c : Cursor) (result : Text) :
    appendEscape c result = some (c.appendEscape result) := by
  unfold appendEscape Cursor.appendEscape
  refine ite_some fun _ => ?_
  refine ite_some fun _ => ?_
  refine ite_some fun _ => ?_
  refine ite_some fun _ => ?_
  refine ite_some fun _ => ?_
  refine ite_some fun _ => ?_
  refine ite_some fun _ => ?_
  by_cases code : (c.currentChar = ch 'u' || c.currentChar = ch 'U') = true
  · rw [if_pos code, if_pos code]
    simp only
    have width : (if c.currentChar = ch 'u' then 4 else 8) ≤ 8 ∧
        0 < (if c.currentChar = ch 'u' then 4 else 8) := by
      split <;> decide
    generalize (if c.currentChar = ch 'u' then 4 else 8) = digits at *
    refine ite_some fun ahead => ?_
    obtain ⟨inside, all⟩ := xdigits_inside (by simpa using ahead)
    have length := inside
    rw [List.length_drop] at length
    have taken : ((c.rest.drop 1).take digits).length = digits := by
      rw [List.length_take, Nat.min_eq_left inside]
    have nonempty : (c.rest.drop 1).take digits ≠ [] := by
      intro nil
      rw [nil] at taken
      exact absurd taken width.2.ne
    rw [substr, if_pos (by omega), Option.bind_eq_bind, Option.bind_some,
      stoul_digits all nonempty (by omega), Option.bind_eq_bind, Option.bind_some]
    exact (apply_ite some _ _ _).symm
  · rw [if_neg code, if_neg code]

theorem compare_eq {text : Text} {offset : Nat} (inside : offset ≤ text.length) (count : Nat)
    (word : Text) : compare text offset count word = some ((text.drop offset).take count == word) := by
  unfold compare substr
  rw [if_pos inside, Option.map_some]

theorem atInfOrNan_eq (c : Cursor) : atInfOrNan c = some c.atInfOrNan := by
  have inside : (if c.currentChar = ch '+' || c.currentChar = ch '-' then 1 else 0) ≤
      c.rest.length := by
    split
    · rename_i sign
      apply Cursor.inside_of_currentChar
      intro zero
      rw [zero] at sign
      exact absurd sign (by decide)
    · exact Nat.zero_le _
  unfold atInfOrNan Cursor.atInfOrNan
  simp only [compare_eq inside, Option.bind_eq_bind, Option.bind_some]
  generalize (if c.currentChar = ch '+' || c.currentChar = ch '-' then 1 else 0) = start
  cases inf : ((c.rest.drop start).take 3 == [ch 'i', ch 'n', ch 'f'] &&
    ! isBareKeyChar (c.peekChar (start + 3))) with
  | true => rfl
  | false => rfl

theorem wordAhead_eq (c : Cursor) (word : Text) :
    wordAhead c word = some (c.rest.take word.length == word) := by
  unfold wordAhead
  split
  · rw [substr_front]
    rfl
  · rename_i short
    congr 1
    symm
    rw [beq_eq_false_iff_ne]
    intro same
    have lengths := congrArg List.length same
    rw [List.length_take] at lengths
    omega

theorem parseBoolean_eq (c : Cursor) : parseBoolean c = some c.parseBoolean := by
  unfold parseBoolean Cursor.parseBoolean
  simp only [wordAhead_eq, Option.bind_eq_bind, Option.bind_some, beq_iff_eq]
  refine ite_some fun _ => ?_
  exact ite_some fun _ => rfl

/-- An array of tables always has an element, so `open_table` finds the last one. -/
theorem openTableParts_eq {table : TableNode} (h : table.WellFormed) (key : Text)
    (rest : List Text) (array : Bool) (headerStart : Position) :
    openTableParts table key rest array headerStart =
      some (table.openTableParts key rest array headerStart) := by
  induction rest generalizing table key with
  | nil =>
    unfold openTableParts TableNode.openTableParts
    exact ite_some fun _ => rfl
  | cons next rest ih =>
    have child : ((find table.tables key).getD
        { TableNode.fresh with array := array && (next :: rest).isEmpty }).WellFormed := by
      cases found : find table.tables key with
      | some child => exact h.child found
      | none =>
        simp only [List.isEmpty_cons, Bool.and_false, Option.getD_none]
        exact TableNode.WellFormed.fresh false
    unfold openTableParts TableNode.openTableParts
    refine ite_some fun _ => ?_
    generalize (find table.tables key).getD
        { TableNode.fresh with array := array && (next :: rest).isEmpty } = c at child ⊢
    simp only
    by_cases isArray : c.array = true
    · have nonempty := (child.sound.isArray isArray).2.2.2
      have last : c.elements.getLast? = some c.lastElement := by
        rw [TableNode.lastElement, List.getLast?_eq_some_getLast nonempty]
        rfl
      have member := child.member _ (List.mem_of_getLast? last)
      rw [if_pos isArray, if_pos isArray, last, Option.bind_some, ih member, Option.map_some]
    · rw [if_neg isArray, if_neg isArray, ih child, Option.map_some]

theorem openTable_eq {root : TableNode} (h : root.WellFormed) (keyPath : KeyPath) (array : Bool)
    (headerStart : Position) :
    openTable root keyPath array headerStart = some (root.openTable keyPath array headerStart) :=
  openTableParts_eq h ..

end Throwing

namespace Cursor

/-- The states of the loop of `parse_document`. -/
inductive AtLoop (input : Text) : Cursor → Document → Prop
  | start : AtLoop input (start input) Document.start
  | next {c d s pos e} (before : AtLoop input c d)
    (statement : c.skipWhitespaceAndComments.parseStatement = .ok ((s, pos), e))
    (defined : (d.define s pos).2 = .ok ()) : AtLoop input e (d.define s pos).1

theorem AtLoop.shows {input : Text} {c : Cursor} {d : Document} (h : AtLoop input c d) :
    ∃ L, d.Shows L := by
  induction h with
  | start => exact ⟨Layout.start, Document.Shows.start⟩
  | @next c d s pos e before statement defined ih =>
    obtain ⟨L, shows'⟩ := ih
    have follows := Document.define_follows shows' s pos
    cases o : L.define d.current s with
    | none =>
      rw [o] at follows
      obtain ⟨error, failed⟩ := follows
      rw [failed] at defined
      cases defined
    | some r =>
      rw [o] at follows
      exact ⟨r.1, follows.2.1⟩

/-- Whatever byte is looked at, one that is not the one for the end is in the input. -/
theorem inside_of_peekChar {c : Cursor} {k : Nat} (h : c.peekChar k ≠ 0) : k < c.rest.length := by
  by_contra beyond
  exact h (List.getD_eq_default _ _ (Nat.le_of_not_lt beyond))

/-- Every turn of every loop takes a byte or leaves the loop. -/
structure LoopsAdvance : Prop where
  peeked : ∀ (c : Cursor) k, c.peekChar k ≠ 0 → k < c.rest.length
  blankLines : Turns.Progressive skipLines (fun c => c.rest.length) (fun c d => c.Past 0 d)
  basicString : ∀ kind, Advancing Prod.fst
    (fun n (s : Cursor × Text) => Cursor.basicString kind n s.1 s.2)
  literalString : ∀ kind, Advancing Prod.fst
    (fun n (s : Cursor × Text) => Cursor.literalString kind n s.1 s.2)
  multiLineString : ∀ quote kind, Advancing Prod.fst
    (fun n (s : Cursor × Text) => Cursor.multiLineString quote kind n s.1 s.2)
  headerKeys : Advancing id Cursor.headerKeys
  pairKeys : Advancing id Cursor.pairKeys
  readDigits : ∀ base, Advancing Prod.fst
    (fun n (s : Cursor × Text × Nat) => Cursor.readDigits base n s.1 s.2.1 s.2.2)
  chunks : ∀ base bits chunk, 0 < chunk →
    Turns.Progressive (fun n (s : Text × Number) => sumChunks base bits chunk n s.1 s.2)
      (fun s => s.1.length) (fun _ r => r ≠ .error .outOfTurns)
  elements : ∀ c d, NextElement c d → c.Past 1 d
  pairs : ∀ c d, NextPair c d → c.Past 1 d
  document : Advancing Prod.fst
    (fun n (s : Cursor × Document) => Cursor.parseDocument n s.1 s.2)

/-- Every call that may throw is within its domain. -/
structure NeverThrows (input : Text) : Prop where
  appendEscape : ∀ c result, Throwing.appendEscape c result = some (c.appendEscape result)
  atInfOrNan : ∀ c, Throwing.atInfOrNan c = some c.atInfOrNan
  parseBoolean : ∀ c, Throwing.parseBoolean c = some c.parseBoolean
  openTable : ∀ c d keyPath array pos, AtLoop input c d →
    Throwing.openTable d.root keyPath array pos = some (d.root.openTable keyPath array pos)
  groups : ∀ count s n rest, 0 < count → count ≤ 4 →
    Dross.takeDigits count s = some (n, rest) → Throwing.stoi (s.take count) = some n
  fraction : ∀ s digits rest, Timestamp.takeFraction s = some (some digits, rest) →
    Throwing.fractionNanoseconds digits = some (Timestamp.fractionNanoseconds digits)
  number : ∀ text, Throwing.canonicalText text = some (canonicalText text)
  sum : ∀ a b, Throwing.addPositiveNumbers a b = some (addPositiveNumbers a b)
  product : ∀ a b, Throwing.multiplyPositiveNumbers a b = some (multiplyPositiveNumbers a b)

theorem loopsAdvance : LoopsAdvance := by
  constructor
  · exact fun c k => inside_of_peekChar
  · exact progressive_skipLines
  · exact advancing_basicString
  · exact advancing_literalString
  · exact advancing_multiLineString
  · exact advancing_headerKeys
  · exact advancing_pairKeys
  · exact advancing_readDigits
  · exact fun base bits chunk => progressive_sumChunks
  · exact fun c d => NextElement.past
  · exact fun c d => NextPair.past
  · exact advancing_parseDocument

theorem neverThrows (input : Text) : NeverThrows input := by
  constructor
  · exact Throwing.appendEscape_eq
  · exact Throwing.atInfOrNan_eq
  · exact Throwing.parseBoolean_eq
  · intro c d keyPath array pos loop
    obtain ⟨L, shows'⟩ := loop.shows
    exact Throwing.openTable_eq shows'.wellFormed keyPath array pos
  · exact fun count s n rest => Throwing.stoi_group
  · intro s digits rest taken
    exact Throwing.fractionNanoseconds_eq (Timestamp.takeFraction_digits taken)
  · exact Throwing.canonicalText_eq
  · exact Throwing.addPositiveNumbers_eq
  · exact Throwing.multiplyPositiveNumbers_eq

/-- Every input is read to the end, to a dictionary or to an error, and nothing throws. -/
theorem parser_total (input : Text) :
    ((∃ d, (start input).parse = .ok d) ∨ ∃ e, (start input).parse = .error (.failed e)) ∧
      LoopsAdvance ∧ (∀ c d, Calls c d → c.Past 1 d) ∧ NeverThrows input :=
  ⟨parse_ends input, loopsAdvance, fun _ _ => Calls.past, neverThrows input⟩

end Cursor

end Dross
