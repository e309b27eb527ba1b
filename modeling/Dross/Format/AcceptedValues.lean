import Dross.Format.PrefixedIntegers
import Dross.Format.ReadStrings
import Dross.Format.ReportedPositions
import Dross.Format.RoundTrip

/-!
# What is accepted can be written

Every value the parser returns has a form in TOML, with valid strings and keys in order,
and the tables it builds hold only such values. So whatever is accepted can be written
again.
-/

namespace Dross

open OrderedMap Toml

namespace Value

/-- Everything in the value can be written. -/
structure IsWritable (v : Value) : Prop where
  ordered : v.Ordered
  formed : Formed v
  valid : AllValid v

variable {elements : List Value} {d : Dictionary}

theorem isWritable_array (all : ∀ v ∈ elements, v.IsWritable) :
    (Value.array elements).IsWritable := by
  constructor
  · exact orderedElements_iff.mpr fun v mem => (all v mem).ordered
  · exact everywhereElements_iff.mpr fun v mem => (all v mem).formed
  · exact everywhereElements_iff.mpr fun v mem => (all v mem).valid

theorem isWritable_dictionary (sorted : Sorted d)
    (all : ∀ p ∈ d, isValidUtf8 p.1 = true ∧ p.2.IsWritable) : (Value.dictionary d).IsWritable := by
  constructor
  · exact ⟨sorted, orderedProperties_iff.mpr fun p mem => (all p mem).2.ordered⟩
  · exact everywhereProperties_iff.mpr fun p mem => ⟨trivial, (all p mem).2.formed⟩
  · exact everywhereProperties_iff.mpr fun p mem => ⟨(all p mem).1, (all p mem).2.valid⟩

theorem isWritable_string {s : Text} (valid : isValidUtf8 s = true) : (Value.string s).IsWritable :=
  ⟨trivial, trivial, valid⟩

theorem isWritable_number {n : Number} (number : n.isNan = false) : (Value.number n).IsWritable :=
  ⟨trivial, number, trivial⟩

theorem isWritable_boolean (b : Bool) : (Value.boolean b).IsWritable := ⟨trivial, trivial, trivial⟩

theorem isWritable_timestamp (t : Timestamp) : (Value.timestamp t).IsWritable :=
  ⟨trivial, trivial, trivial⟩

end Value

namespace Number

theorem Exactly.notNan {n : Number} {q : ℚ} (h : n.Exactly q) : n.isNan = false :=
  beq_eq_false_iff_ne.mpr h.canonical.ne_nan

theorem calculate_number {a b sum : Number} (notA : a.isNan = false) (notB : b.isNan = false)
    (calculated : a.calculate b .plus = some sum ∨ a.calculate b .times = some sum) :
    sum.isNan = false := by
  obtain ⟨⟨s, plus, exactly⟩, -, p, times, exactly'⟩ := (exact_arithmetic a b).1 notA notB
  rcases calculated with same | same
  · rw [plus] at same
    rw [← Option.some.inj same]
    exact exactly.notNan
  · rw [times] at same
    rw [← Option.some.inj same]
    exact exactly'.notNan

end Number

/-! ## Tables -/

namespace TableNode

/-- A tree of tables that hold what can be written. -/
inductive IsWritable : TableNode → Prop
  | node {node : TableNode} (sorted : Sorted node.pairs)
    (pairs : ∀ p ∈ node.pairs, isValidUtf8 p.1 = true ∧ p.2.IsWritable)
    (keys : ∀ p ∈ node.tables, isValidUtf8 p.1 = true)
    (tables : ∀ p ∈ node.tables, IsWritable p.2)
    (elements : ∀ e ∈ node.elements, IsWritable e) : IsWritable node

namespace IsWritable

variable {node child : TableNode} {key : Text} {pos : Position}

theorem ofEmpty (empty : node.pairs = [] ∧ node.tables = [] ∧ node.elements = []) :
    node.IsWritable := by
  obtain ⟨noPairs, noTables, noElements⟩ := empty
  constructor
  · rw [noPairs]
    exact sorted_nil
  · rw [noPairs]
    simp
  · rw [noTables]
    simp
  · rw [noTables]
    simp
  · rw [noElements]
    simp

theorem table (h : node.IsWritable) (found : find node.tables key = some child) :
    child.IsWritable := by
  cases h with
  | node sorted pairs keys tables elements => exact tables _ (mem_of_find found)

theorem element (h : node.IsWritable) : ∀ e ∈ node.elements, e.IsWritable := by
  cases h with
  | node sorted pairs keys tables elements => exact elements

theorem setTable (h : node.IsWritable) (valid : isValidUtf8 key = true) (hc : child.IsWritable) :
    (node.setTable key child).IsWritable := by
  cases h with
  | node sorted pairs keys tables elements =>
    refine .node sorted pairs (fun p mem => ?_) (fun p mem => ?_) elements
    · rcases mem_set mem with rfl | mem
      · exact valid
      · exact keys p mem
    · rcases mem_set mem with rfl | mem
      · exact hc
      · exact tables p mem

theorem setPairs (h : node.IsWritable) (valid : isValidUtf8 key = true) {val : Value}
    (hv : val.IsWritable) : { node with pairs := set node.pairs key val }.IsWritable := by
  cases h with
  | node sorted pairs keys tables elements =>
    refine .node (sorted.set key val) (fun p mem => ?_) keys tables elements
    rcases mem_set mem with rfl | mem
    · exact ⟨valid, hv⟩
    · exact pairs p mem

theorem setElements (h : node.IsWritable) {elements : List TableNode}
    (all : ∀ e ∈ elements, e.IsWritable) : { node with elements := elements }.IsWritable := by
  cases h with
  | node sorted pairs keys tables _ => exact .node sorted pairs keys tables all

theorem addKey (h : node.IsWritable) (valid : isValidUtf8 key = true) {val : Value}
    (hv : val.IsWritable) : (node.addKey key val pos).1.IsWritable := by
  unfold TableNode.addKey addDictionaryKey
  split
  · exact h
  · split
    · exact h
    · rename_i pairs added
      split at added
      · cases added
      · cases added
        exact h.setPairs valid hv

theorem addPairParts (h : node.IsWritable) {rest : List Text} {val : Value}
    (valid : ∀ k ∈ key :: rest, isValidUtf8 k = true) (hv : val.IsWritable) :
    (node.addPairParts key rest val pos).1.IsWritable := by
  obtain ⟨first, others⟩ := List.forall_mem_cons.mp valid
  induction rest generalizing node key with
  | nil => exact h.addKey first hv
  | cons next rest ih =>
    have later := List.forall_mem_cons.mp others
    unfold TableNode.addPairParts
    split
    · exact h
    · split
      · exact h.setTable first (ih (ofEmpty ⟨rfl, rfl, rfl⟩) others later.1 later.2)
      · rename_i child found
        split
        · exact h.setTable first (ih (h.table found) others later.1 later.2)
        · exact h

theorem nameTable (h : node.IsWritable) (array : Bool) :
    (node.nameTable array pos).1.IsWritable := by
  unfold TableNode.nameTable
  split
  · split
    · exact h
    · refine h.setElements fun e mem => ?_
      rcases List.mem_append.mp mem with mem | mem
      · exact h.element e mem
      · rw [List.mem_singleton.mp mem]
        exact ofEmpty ⟨rfl, rfl, rfl⟩
  · split
    · exact h
    · cases h with
      | node sorted pairs keys tables elements => exact .node sorted pairs keys tables elements

theorem lastElement (h : node.IsWritable) : node.lastElement.IsWritable := by
  unfold TableNode.lastElement
  cases last : node.elements.getLast? with
  | none => exact ofEmpty ⟨rfl, rfl, rfl⟩
  | some e => exact h.element e (List.mem_of_getLast? last)

theorem tableOr (h : node.IsWritable) (key : Text) (array : Bool) :
    ((find node.tables key).getD { TableNode.fresh with array := array }).IsWritable := by
  cases found : find node.tables key with
  | none => exact ofEmpty ⟨rfl, rfl, rfl⟩
  | some child => exact h.table found

theorem openTableParts (h : node.IsWritable) {rest : List Text} {array : Bool}
    (valid : ∀ k ∈ key :: rest, isValidUtf8 k = true) :
    (node.openTableParts key rest array pos).1.IsWritable := by
  obtain ⟨first, others⟩ := List.forall_mem_cons.mp valid
  induction rest generalizing node key with
  | nil =>
    unfold TableNode.openTableParts
    split
    · exact h
    · exact h.setTable first ((h.tableOr key _).nameTable array)
  | cons next rest ih =>
    have later := List.forall_mem_cons.mp others
    unfold TableNode.openTableParts
    split
    · exact h
    have child := h.tableOr key (array && (next :: rest).isEmpty)
    simp only
    generalize (find node.tables key).getD
      { TableNode.fresh with array := array && (next :: rest).isEmpty } = c at child ⊢
    split
    · refine h.setTable first (child.setElements fun e mem => ?_)
      rcases List.mem_append.mp mem with mem | mem
      · exact child.element e (List.mem_of_mem_dropLast mem)
      · rw [List.mem_singleton.mp mem]
        exact ih child.lastElement others later.1 later.2
    · exact h.setTable first (ih child others later.1 later.2)

theorem nodeAt {P : Path} (h : node.IsWritable) (found : node.nodeAt P = some child) :
    child.IsWritable := by
  induction P generalizing node with
  | nil => exact Option.some.inj found ▸ h
  | cons s P ih =>
    cases s with
    | key k =>
      obtain ⟨next, here, below⟩ := Option.bind_eq_some_iff.mp found
      exact ih (h.table here) below
    | element i =>
      obtain ⟨next, here, below⟩ := Option.bind_eq_some_iff.mp found
      exact ih (h.element next (List.mem_of_getElem? here)) below

theorem validKey (h : node.IsWritable) (found : find node.tables key = some child) :
    isValidUtf8 key = true := by
  cases h with
  | node sorted pairs keys tables elements => exact keys _ (mem_of_find found)

theorem replaceAt {P : Path} (h : node.IsWritable) {new : TableNode} (hn : new.IsWritable) :
    (node.replaceAt P new).IsWritable := by
  induction P generalizing node with
  | nil =>
    rw [TableNode.replaceAt]
    exact hn
  | cons s P ih =>
    cases s with
    | key k =>
      rw [TableNode.replaceAt]
      split
      · exact h
      · rename_i child found
        exact h.setTable (h.validKey found) (ih (h.table found))
    | element i =>
      rw [TableNode.replaceAt]
      split
      · exact h
      · rename_i child found
        refine h.setElements fun e mem => ?_
        rcases List.mem_or_eq_of_mem_set mem with mem | rfl
        · exact h.element e mem
        · exact ih (h.element child (List.mem_of_getElem? found))

/-! ## Merging -/

theorem mergeInto {d : Dictionary} {tables : List (Text × TableNode)} (sorted : Sorted d)
    (pairs : ∀ p ∈ d, isValidUtf8 p.1 = true ∧ p.2.IsWritable)
    (inner : ∀ p ∈ tables, isValidUtf8 p.1 = true ∧ p.2.toValue.IsWritable) :
    (Value.dictionary (TableNode.mergeInto d tables)).IsWritable := by
  induction tables generalizing d with
  | nil => exact Value.isWritable_dictionary sorted pairs
  | cons p tables ih =>
    obtain ⟨key, table⟩ := p
    obtain ⟨first, others⟩ := List.forall_mem_cons.mp inner
    rw [TableNode.mergeInto]
    refine ih (sorted.set key table.toValue) (fun q mem => ?_) others
    rcases mem_set mem with rfl | mem
    · exact first
    · exact pairs q mem

/-- What a tree is merged to, as a table and as the value it is in its parent. -/
theorem merged (h : node.IsWritable) :
    (Value.dictionary node.mergeTables).IsWritable ∧ node.toValue.IsWritable := by
  induction h with
  | @node node sorted pairs keys tables elements inTables inElements =>
    have merged : (Value.dictionary node.mergeTables).IsWritable :=
      mergeInto sorted pairs fun p mem => ⟨keys p mem, (inTables p mem).2⟩
    refine ⟨merged, ?_⟩
    rw [toValue_eq]
    split
    · rw [elementValues_eq]
      refine Value.isWritable_array fun v mem => ?_
      obtain ⟨e, here, rfl⟩ := List.mem_map.mp mem
      exact (inElements e here).1
    · exact merged

end IsWritable

end TableNode

namespace Cursor

variable {c d : Cursor}

/-! ## Scalars -/

/-- The value that is read can be written. -/
abbrev GivesWritable (r : Reading Value) : Prop := Gives (fun v _ => v.IsWritable) r

theorem parseBoolean_writable : GivesWritable c.parseBoolean := by
  unfold parseBoolean
  refine .ite (fun _ => .ok (Value.isWritable_boolean true)) fun _ => ?_
  exact .ite (fun _ => .ok (Value.isWritable_boolean false)) fun _ => .fail _

theorem finishDatetime_writable (start : Position) (s : Cursor × Text) :
    GivesWritable (finishDatetime start s) := by
  unfold finishDatetime
  split
  · exact .error
  · exact .ok (Value.isWritable_timestamp _)

theorem parseDatetime_writable : GivesWritable c.parseDatetime := by
  unfold parseDatetime
  refine .ite (fun _ => .error) fun _ => ?_
  split
  · exact .error
  refine .ite (fun _ => ?_) fun _ => .error
  split
  · exact .error
  refine .ite (fun _ => finishDatetime_writable _ _) fun _ => ?_
  refine .ite (fun _ => ?_) fun _ => .error
  split
  · exact .error
  · exact finishDatetime_writable _ _

theorem sumChunks_number {base bits chunk n : Nat} {digits : Text} {result sum : Number}
    (number : result.isNan = false) (read : sumChunks base bits chunk n digits result = .ok sum) :
    sum.isNan = false := by
  induction n generalizing digits result with
  | zero => cases read
  | succ n ih =>
    unfold sumChunks at read
    split at read
    · cases read
      exact number
    · simp only at read
      split at read
      · cases read
      · rename_i next summed
        obtain ⟨shifted, times, plus⟩ := Option.bind_eq_some_iff.mp summed
        have product := Number.calculate_number number (Number.ofUnsigned_exactly _).notNan (Or.inr times)
        exact ih (Number.calculate_number product (Number.ofUnsigned_exactly _).notNan (Or.inl plus)) read

theorem parsePrefixedInteger_writable : GivesWritable c.parsePrefixedInteger := by
  unfold parsePrefixedInteger
  simp only
  split
  · exact .error
  refine .ite (fun _ => .fail _) fun _ => ?_
  split
  · exact .error
  · rename_i sum read
    exact .ok (Value.isWritable_number (sumChunks_number (Number.ofUnsigned_exactly 0).notNan read))

theorem parseNumber_writable : GivesWritable c.parseNumber := by
  unfold parseNumber
  refine .ite (fun _ => parsePrefixedInteger_writable) fun _ => ?_
  simp only
  refine .ite (fun _ => .fail _) fun _ => ?_
  split
  · exact .error
  refine .ite (fun _ => .fail _) fun _ => .ite (fun _ => .fail _) fun _ => ?_
  split
  · exact .error
  split
  · exact .error
  · exact .ite (fun _ => .fail _) fun number =>
      .ok (Value.isWritable_number (Bool.eq_false_iff.mpr number))

/-! ## Values -/

theorem Leads.past (h : c.Leads d) : c.Past 0 d := by
  induction h with
  | refl => exact Past.refl c
  | tail _ move ih =>
    refine ih.trans (n := 0) ?_
    cases move with
    | advance => exact past_advance _
    | boolean read => exact (parseBoolean_reads _).past _ _ read

theorem OfValid.leads (h : c.OfValid) (leads : c.Leads d) : d.OfValid := h.past leads.past

/-- What the calls of the parser of values return with so many turns. -/
structure ReadsWritable (turns : Nat) : Prop where
  value : ∀ c : Cursor, c.OfValid → GivesWritable (parseValue turns c)
  array : ∀ c : Cursor, c.OfValid → GivesWritable (parseArray turns c)
  elements : ∀ (c : Cursor) result, c.OfValid → (∀ v ∈ result, v.IsWritable) →
    Gives (fun vs _ => ∀ v ∈ vs, v.IsWritable) (arrayElements turns c result)
  inlineTable : ∀ c : Cursor, c.OfValid → GivesWritable (parseInlineTable turns c)
  pairs : ∀ (c : Cursor) (result : TableNode), c.OfValid → result.IsWritable →
    Gives (fun node _ => node.IsWritable) (inlinePairs turns c result)
  keyValue : ∀ c : Cursor, c.OfValid →
    Gives (fun pair _ => KeysValid pair.1 ∧ pair.2.IsWritable) (parseKeyValue turns c)

namespace ReadsWritable

variable {turns : Nat}

theorem parseValue_writable (h : ReadsWritable turns) (left : c.OfValid) :
    GivesWritable (parseValue (turns + 1) c) := by
  have there := left.past (past_skipWhitespace c)
  unfold parseValue
  simp only
  refine .ite (fun _ => .fail _) fun _ => ?_
  refine .ite (fun quote => ?_) fun _ => ?_
  · rw [Bool.or_eq_true, decide_eq_true_eq, decide_eq_true_eq] at quote
    exact (parseString_valid there quote).map Value.string fun _ _ => Value.isWritable_string
  refine .ite (fun _ => h.array _ there) fun _ => ?_
  refine .ite (fun _ => h.inlineTable _ there) fun _ => ?_
  refine .ite (fun _ => parseBoolean_writable) fun _ => ?_
  refine .ite (fun _ => parseDatetime_writable) fun _ => ?_
  exact .ite (fun _ => parseNumber_writable) fun _ => .fail _

theorem parseArray_writable (h : ReadsWritable turns) (left : c.OfValid) :
    GivesWritable (parseArray (turns + 1) c) := by
  have there := (left.past (past_advance c)).past (past_skipWhitespaceAndComments _)
  unfold parseArray
  refine .ite (fun _ => .fail _) fun _ => ?_
  refine .ite (fun _ => .ok (Value.isWritable_array (by simp))) fun _ => ?_
  exact (h.elements _ [] there (by simp)).map Value.array fun _ _ => Value.isWritable_array

theorem arrayElements_writable (h : ReadsWritable turns) {result : List Value} (left : c.OfValid)
    (before : ∀ v ∈ result, v.IsWritable) :
    Gives (fun vs _ => ∀ v ∈ vs, v.IsWritable) (arrayElements (turns + 1) c result) := by
  unfold arrayElements
  rcases read : parseValue turns c with e | ⟨val, d⟩
  · exact .error
  have all : ∀ v ∈ result ++ [val], v.IsWritable := by
    intro v mem
    rcases List.mem_append.mp mem with mem | mem
    · exact before v mem
    · rw [List.mem_singleton.mp mem]
      exact h.value c left val d read
  have there := (left.leads (((placesValues turns).value c).leads val d read)).past
    (past_skipWhitespaceAndComments d)
  have next := (there.past (past_advance _)).past (past_skipWhitespaceAndComments _)
  refine .ite (fun _ => ?_) fun _ => .ite (fun _ => .ok all) fun _ => .fail _
  exact .ite (fun _ => .ok all) fun _ => h.elements _ _ next all

theorem parseInlineTable_writable (h : ReadsWritable turns) (left : c.OfValid) :
    GivesWritable (parseInlineTable (turns + 1) c) := by
  have there := (left.past (past_advance c)).past (past_skipWhitespace _)
  unfold parseInlineTable
  refine .ite (fun _ => .fail _) fun _ => ?_
  refine .ite (fun _ => .ok (Value.isWritable_dictionary sorted_nil (by simp))) fun _ => ?_
  exact (h.pairs _ _ there (.ofEmpty ⟨rfl, rfl, rfl⟩)).map
    (fun node => Value.dictionary node.mergeTables) fun _ _ node => node.merged.1

theorem inlinePairs_writable (h : ReadsWritable turns) {result : TableNode} (left : c.OfValid)
    (before : result.IsWritable) :
    Gives (fun node _ => node.IsWritable) (inlinePairs (turns + 1) c result) := by
  unfold inlinePairs
  simp only
  rcases read : parseKeyValue turns c with e | ⟨⟨keyPath, val⟩, d⟩
  · exact .error
  obtain ⟨keys, value⟩ := h.keyValue c left (keyPath, val) d read
  have added : (result.addPair keyPath val c.position).1.IsWritable :=
    before.addPairParts keys value
  simp only
  rcases outcome : result.addPair keyPath val c.position with ⟨node, e | _⟩
  · exact .error
  rw [outcome] at added
  have there := (left.leads (((placesValues turns).keyValue c).leads _ d read)).past
    (past_skipWhitespace d)
  refine .ite (fun _ => .fail _) fun _ => .ite (fun _ => ?_) fun _ => ?_
  · exact h.pairs _ _ ((there.past (past_advance _)).past (past_skipWhitespace _)) added
  · exact .ite (fun _ => .ok added) fun _ => .fail _

theorem parseKeyValue_writable (h : ReadsWritable turns) (left : c.OfValid) :
    Gives (fun pair _ => KeysValid pair.1 ∧ pair.2.IsWritable) (parseKeyValue (turns + 1) c) := by
  unfold parseKeyValue
  rcases read : c.parseKeyPath with e | ⟨keyPath, d⟩
  · exact .error
  have keys := parseKeyPath_valid left keyPath d read
  have there := left.past ((parseKeyPath_reads c).past keyPath d read)
  exact (h.value d there).map (fun val => (keyPath, val)) fun _ _ value => ⟨keys, value⟩

end ReadsWritable

theorem readsWritable (turns : Nat) : ReadsWritable turns := by
  induction turns with
  | zero =>
    constructor
    · exact fun _ _ => .error
    · exact fun _ _ => .error
    · exact fun _ _ _ _ => .error
    · exact fun _ _ => .error
    · exact fun _ _ _ _ => .error
    · exact fun _ _ => .error
  | succ turns ih =>
    constructor
    · exact fun c left => ih.parseValue_writable left
    · exact fun c left => ih.parseArray_writable left
    · exact fun c result left before => ih.arrayElements_writable left before
    · exact fun c left => ih.parseInlineTable_writable left
    · exact fun c result left before => ih.inlinePairs_writable left before
    · exact fun c left => ih.parseKeyValue_writable left

/-! ## Documents -/

/-- The names of a statement are valid, and its value can be written. -/
def StatementWritable : Statement → Prop
  | .pair keyPath val => KeysValid keyPath ∧ val.IsWritable
  | .header keyPath _ => KeysValid keyPath

theorem parseStatement_writable (left : c.OfValid) :
    Gives (fun s _ => StatementWritable s.1) c.parseStatement := by
  unfold parseStatement
  refine .ite (fun _ => ?_) fun _ => ?_
  · rcases read : c.parseTableHeader with e | ⟨⟨keyPath, array⟩, d⟩
    · exact .error
    have keys := parseTableHeader_valid left (keyPath, array) d read
    have line : Gives (fun _ _ => True) d.expectLineEnd := fun _ _ _ => trivial
    exact line.map (fun _ => (Statement.header keyPath array, c.position)) fun _ _ _ => keys
  · rcases read : parseKeyValue c.turns c with e | ⟨⟨keyPath, val⟩, d⟩
    · exact .error
    have both := (readsWritable c.turns).keyValue c left (keyPath, val) d read
    have line : Gives (fun _ _ => True) d.expectLineEnd := fun _ _ _ => trivial
    exact line.map (fun _ => (Statement.pair keyPath val, c.position)) fun _ _ _ => both

end Cursor

open Cursor

theorem Document.define_writable {doc : Document} (h : doc.root.IsWritable) {s : Statement}
    (hs : StatementWritable s) (pos : Position) : (doc.define s pos).1.root.IsWritable := by
  cases s with
  | pair keyPath val =>
    have table : ((doc.root.nodeAt doc.current).getD TableNode.fresh).IsWritable := by
      cases found : doc.root.nodeAt doc.current with
      | none => exact .ofEmpty ⟨rfl, rfl, rfl⟩
      | some node => exact h.nodeAt found
    exact h.replaceAt (table.addPairParts hs.1 hs.2)
  | header keyPath array =>
    have opened : (doc.root.openTable keyPath array pos).1.IsWritable := h.openTableParts hs
    unfold define
    simp only
    split
    · rename_i result
      rw [result] at opened
      exact opened
    · rename_i result
      rw [result] at opened
      exact opened

namespace Cursor

variable {c : Cursor}

theorem parseDocument_writable (n : Nat) {doc : Document} (left : c.OfValid)
    (h : doc.root.IsWritable) :
    Gives (fun doc _ => doc.root.IsWritable) (parseDocument n c doc) := by
  induction n generalizing c doc with
  | zero => exact .error
  | succ n ih =>
    have there := left.past (past_skipWhitespaceAndComments c)
    unfold parseDocument
    refine .ite (fun _ => .ok h) fun _ => ?_
    rcases read : c.skipWhitespaceAndComments.parseStatement with e | ⟨⟨s, start⟩, d⟩
    · exact .error
    have after := Document.define_writable h (parseStatement_writable there (s, start) d read) start
    simp only
    rcases defined : doc.define s start with ⟨next, e | _⟩
    · exact .error
    rw [defined] at after
    exact ih (there.past ((parseStatement_reads _).past _ d read)) after

end Cursor

namespace Toml

/-- What is accepted is a dictionary in order whose values all have a form, with valid strings
and keys. -/
theorem accepted_writable {input : Text} {d : Dictionary} (accepted : deserialize input = .ok d) :
    (Value.dictionary d).IsWritable := by
  unfold deserialize at accepted
  split at accepted
  · cases accepted
    exact Value.isWritable_dictionary sorted_nil (by simp)
  split at accepted
  · cases accepted
  rename_i valid
  have left : (start input).OfValid := ⟨input, by simpa using valid, List.suffix_refl _⟩
  unfold Cursor.parse at accepted
  rcases read : parseDocument ((start input).rest.length + 1) (start input) Document.start with
    e | ⟨doc, f⟩
  · rw [read] at accepted
    cases accepted
  · have root := parseDocument_writable _ left (.ofEmpty ⟨rfl, rfl, rfl⟩) doc f read
    rw [read] at accepted
    simp only at accepted
    split at accepted
    · cases accepted
    · cases accepted
      exact root.merged.1

end Toml

end Dross
