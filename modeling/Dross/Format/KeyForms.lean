import Dross.Format.StringForms

/-!
# The forms of a key

A key is written bare where it can be and quoted where it cannot, and read back from
either. The parts of a header are read up to its brackets, and the key of a pair up to
its value.
-/

namespace Dross

/-- A byte that comes after a key in what the serializer writes. -/
def endsKey (c : UInt8) : Bool := c == ch ' ' || c == ch '.' || c == ch ']'

theorem endsKey_byte (c : UInt8) (ends : endsKey c = true) : isBareKeyChar c = false := by
  revert c
  exact everyByte (by decide +kernel)

theorem bare_visible (c : UInt8) (bare : isBareKeyChar c = true) :
    Cursor.isVisible c = true ∧ c ≠ ch '"' ∧ c ≠ ch '\'' ∧ c ≠ ch '[' := by
  revert c
  exact everyByte (by decide +kernel)

namespace Cursor

open Toml

variable {c : Cursor} {key more : Text} {stop : UInt8}

/-- A blank before something that is none. -/
theorem skipWhitespace_blank {byte : UInt8} (here : c.rest = ch ' ' :: byte :: more)
    (visible : isVisible byte = true) : c.skipWhitespace = c.advance := by
  have blank : (c.currentChar == ch ' ' || c.currentChar == ch '\t' || c.atCrLf) = true := by
    simp [currentChar_of_at here]
  rw [skipWhitespace, advanceWhile_step here blank]
  apply skipWhitespace_stop
  rwa [currentChar_of_at (rest_advance_of_at here)]

/-- A written key starts with a byte that is no blank and opens no header. -/
theorem escapeKey_start (key : Text) : ∃ byte tail, escapeKey key = byte :: tail ∧
    isVisible byte = true ∧ byte ≠ ch '[' ∧ byte ≠ ch '}' := by
  have bytes (c : UInt8) (bare : isBareKeyChar c = true) :
      isVisible c = true ∧ c ≠ ch '[' ∧ c ≠ ch '}' := by
    revert c
    exact everyByte (by decide +kernel)
  unfold escapeKey
  split
  · exact ⟨ch '"', escapeString key ++ [ch '"'], rfl, by decide, by decide, by decide⟩
  · rename_i bare
    simp only [Bool.or_eq_true, List.any_eq_true, Bool.not_eq_true', not_or, not_exists, not_and,
      Bool.not_eq_false, List.isEmpty_iff] at bare
    obtain ⟨byte, tail, rfl⟩ := List.exists_cons_of_ne_nil bare.1
    exact ⟨byte, tail, rfl, bytes byte (bare.2 byte List.mem_cons_self)⟩

theorem takeWhile_bare (all : ∀ b ∈ key, isBareKeyChar b = true)
    (stops : isBareKeyChar stop = false) :
    (key ++ stop :: more).takeWhile isBareKeyChar = key := by
  rw [List.takeWhile_append_of_pos all, List.takeWhile_cons_of_neg (by simp [stops]),
    List.append_nil]

/-- A key is read from what is written for it. -/
theorem parseKey_escapeKey (here : c.rest = escapeKey key ++ stop :: more)
    (ends : endsKey stop = true) :
    c.parseKey = .ok (key, c.skip (escapeKey key).length) := by
  unfold escapeKey at here ⊢
  split at here
  · rename_i quotes
    rw [if_pos quotes]
    have opening : c.currentChar = ch '"' := currentChar_of_at here
    rw [parseKey, if_pos opening, parseQuotedKey]
    exact parseBasicString_quoted "quoted key" here
  · rename_i bare
    rw [if_neg bare]
    simp only [Bool.or_eq_true, List.any_eq_true, Bool.not_eq_true', not_or, not_exists, not_and,
      Bool.not_eq_false, List.isEmpty_iff] at bare
    obtain ⟨byte, tail, rfl⟩ := List.exists_cons_of_ne_nil bare.1
    have first := bare.2 byte List.mem_cons_self
    obtain ⟨-, double, single, -⟩ := bare_visible byte first
    have current : c.currentChar = byte := currentChar_of_at here
    rw [parseKey, current, if_neg double, if_neg single, if_pos first, parseBareKey, here,
      takeWhile_bare bare.2 (endsKey_byte stop ends)]

/-! ## Headers -/

theorem joinPath_cons (key next : Text) (rest : List Text) :
    joinPath (key :: next :: rest) = escapeKey key ++ ch '.' :: joinPath (next :: rest) := by
  rw [joinPath]
  simp

/-- The parts of a path, of which there is at least one. -/
theorem joinPath_start (key : Text) (rest : List Text) : ∃ byte tail,
    joinPath (key :: rest) = byte :: tail ∧ isVisible byte = true ∧ byte ≠ ch '[' := by
  obtain ⟨byte, tail, written, visible, bracket, -⟩ := escapeKey_start key
  cases rest with
  | nil => exact ⟨byte, tail, written, visible, bracket⟩
  | cons next rest =>
    rw [joinPath_cons, written]
    exact ⟨byte, _, rfl, visible, bracket⟩

theorem headerKeys_joinPath {turns : Nat} {rest : List Text}
    (here : c.rest = joinPath (key :: rest) ++ ch ']' :: more) (enough : rest.length < turns) :
    headerKeys turns c =
      .ok (⟨key, rest⟩, c.skip ((joinPath (key :: rest)).length + 1)) := by
  induction rest generalizing turns c key with
  | nil =>
    obtain ⟨turns, rfl⟩ := Nat.exists_eq_add_one_of_ne_zero (Nat.ne_of_gt enough)
    have here : c.rest = escapeKey key ++ ch ']' :: more := here
    obtain ⟨byte, tail, written, visible, -⟩ := escapeKey_start key
    have start : c.skipWhitespace = c := by
      apply skipWhitespace_stop
      rwa [currentChar_of_at (by rw [here, written]; rfl)]
    have bracket := currentChar_of_at (rest_skip_of_at here)
    have after : (c.skip (escapeKey key).length).skipWhitespace = c.skip (escapeKey key).length := by
      apply skipWhitespace_stop
      rw [bracket]
      decide
    have point : ch ']' ≠ ch '.' := by decide
    rw [headerKeys, start, parseKey_escapeKey here (by decide)]
    simp only [after, bracket, if_neg point, if_true, skip_advance]
    rfl
  | cons next rest ih =>
    obtain ⟨turns, rfl⟩ := Nat.exists_eq_add_one_of_ne_zero (Nat.ne_of_gt (Nat.zero_lt_of_lt enough))
    rw [joinPath_cons, List.append_assoc, List.cons_append] at here
    obtain ⟨byte, tail, written, visible, -⟩ := escapeKey_start key
    have start : c.skipWhitespace = c := by
      apply skipWhitespace_stop
      rwa [currentChar_of_at (by rw [here, written]; rfl)]
    have there := rest_skip_of_at here
    have point := currentChar_of_at there
    have after : (c.skip (escapeKey key).length).skipWhitespace = c.skip (escapeKey key).length := by
      apply skipWhitespace_stop
      rw [point]
      decide
    rw [headerKeys, start, parseKey_escapeKey here (by decide)]
    simp only [after, point, if_true]
    rw [ih (rest_advance_of_at there) (Nat.lt_of_succ_lt_succ enough)]
    simp only [skip_advance, skip_skip, joinPath_cons, List.length_append, List.length_cons,
      KeyPath.keys]
    congr 3
    omega

theorem length_joinPath (key : Text) (rest : List Text) :
    rest.length < (joinPath (key :: rest)).length := by
  induction rest generalizing key with
  | nil =>
    obtain ⟨byte, tail, written, -⟩ := escapeKey_start key
    rw [joinPath, written]
    exact Nat.succ_pos _
  | cons next rest ih =>
    have fewer := ih next
    rw [joinPath_cons, List.length_append, List.length_cons, List.length_cons]
    omega

/-- A header after its line feed, up to the one behind it. -/
def headerText (path : List Text) (array : Bool) : Text :=
  let brackets := if array then 2 else 1
  List.replicate brackets (ch '[') ++ joinPath path ++ List.replicate brackets (ch ']')

theorem header_eq (path : List Text) (array : Bool) :
    header path array = ch '\n' :: (headerText path array ++ [ch '\n']) := rfl

theorem parseTableHeader_headerText {rest : List Text} {array : Bool}
    (here : c.rest = headerText (key :: rest) array ++ more) :
    c.parseTableHeader =
      .ok ((⟨key, rest⟩, array), c.skip (headerText (key :: rest) array).length) := by
  obtain ⟨byte, tail, written, -, bracket⟩ := joinPath_start key rest
  have fewer := length_joinPath key rest
  cases array with
  | false =>
    have opening : c.rest = ch '[' :: (joinPath (key :: rest) ++ ch ']' :: more) := by
      rw [here, headerText]
      simp
    have inside := rest_advance_of_at opening
    have first : c.advance.currentChar = byte := currentChar_of_at (by rw [inside, written]; rfl)
    have single : (c.advance.currentChar == ch '[') = false := by
      rw [first]
      exact beq_eq_false_iff_ne.mpr bracket
    have enough : rest.length < c.advance.rest.length + 1 := by
      rw [inside, List.length_append]
      omega
    have keys := headerKeys_joinPath inside enough
    rw [parseTableHeader, currentChar_of_at opening]
    simp only [bne_self_eq_false, Bool.false_eq_true, if_false, single, keys, advance_skip]
    congr 3
    rw [headerText]
    simp
  | true =>
    have opening : c.rest = ch '[' :: ch '[' ::
        (joinPath (key :: rest) ++ ch ']' :: ch ']' :: more) := by
      rw [here, headerText]
      simp [List.replicate_succ]
    have second := rest_advance_of_at opening
    have inside := rest_advance_of_at second
    have double : (c.advance.currentChar == ch '[') = true := by
      rw [currentChar_of_at second]
      rfl
    have enough : rest.length < c.advance.advance.rest.length + 1 := by
      rw [inside, List.length_append]
      omega
    have keys := headerKeys_joinPath inside enough
    have closing : (c.advance.advance.skip
        ((joinPath (key :: rest)).length + 1)).rest = ch ']' :: more := by
      rw [← skip_skip, rest_skip, rest_skip_of_at inside]
      rfl
    rw [parseTableHeader, currentChar_of_at opening]
    simp only [bne_self_eq_false, Bool.false_eq_true, if_false, double, if_true, keys,
      currentChar_of_at closing]
    simp only [skip_advance, advance_skip]
    congr 3
    rw [headerText]
    simp

/-! ## The key of a pair -/

theorem parseKeyPath_escapeKey {byte : UInt8}
    (here : c.rest = escapeKey key ++ ch ' ' :: ch '=' :: ch ' ' :: byte :: more)
    (visible : isVisible byte = true) :
    c.parseKeyPath = .ok (⟨key, []⟩, c.skip ((escapeKey key).length + 3)) := by
  have there := rest_skip_of_at here
  have equals := rest_advance_of_at there
  have behind := rest_advance_of_at equals
  have blank := skipWhitespace_blank there (by decide)
  have blank' := skipWhitespace_blank behind visible
  have keys : pairKeys (c.rest.length + 1) c =
      .ok (⟨key, []⟩, (c.skip (escapeKey key).length).advance) := by
    rw [pairKeys, parseKey_escapeKey here (by decide)]
    simp only [blank, currentChar_of_at equals]
    rfl
  rw [parseKeyPath, keys]
  simp only [currentChar_of_at equals, bne_self_eq_false, Bool.false_eq_true, if_false, blank']
  simp only [skip_advance]

end Cursor

end Dross
