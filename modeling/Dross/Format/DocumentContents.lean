import Dross.Format.DocumentStatements
import Dross.Format.TableMerge

/-!
# What a document holds

A key that were in both maps of a node would lose its pair when the tables are merged.
None ever is, so the dictionary of an accepted document has a leaf for each pair, the
tables and elements that are named or passed through, and nothing else.
-/

namespace Dross

/-- What a path leads to in a value. -/
def Value.follow : Value → Path → Option Value
  | v, [] => some v
  | .dictionary d, .key k :: P => (OrderedMap.find d k).bind (fun v => v.follow P)
  | .array elements, .element i :: P => elements[i]?.bind (fun v => v.follow P)
  | _, _ :: _ => none

namespace TableNode

open OrderedMap

section Follow

variable {node : TableNode} {P : Path} {k : Text} {i : Nat} {place : Place} {w : Value}

/-- What the place in the tree becomes in the dictionary. -/
def Becomes (place : Place) (w : Value) : Prop :=
  match place with
  | .value v => w = v
  | .table _ _ => ∃ d, w = .dictionary d
  | .array n => ∃ elements, w = .array elements ∧ elements.length = n

theorem toValue_becomes (node : TableNode) : Becomes node.place node.toValue := by
  rw [toValue_eq, place]
  split
  · exact ⟨_, rfl, by rw [elementValues_eq, List.length_map]⟩
  · exact ⟨_, rfl⟩

theorem follow_key (plain : node.array = false) (wf : node.WellFormed) :
    node.toValue.follow (.key k :: P) =
      (((find node.tables k).map toValue).or (find node.pairs k)).bind (fun v => v.follow P) := by
  rw [toValue_eq, plain, if_neg Bool.false_ne_true, Value.follow, wf.find_mergeTables]

theorem follow_element (isArray : node.array = true) (wf : node.WellFormed) :
    node.toValue.follow (.element i :: P) =
      node.elements[i]?.bind (fun e => e.toValue.follow P) := by
  rw [toValue_eq, isArray, if_pos rfl, Value.follow, elementValues_eq, List.getElem?_map]
  cases found : node.elements[i]? with
  | none => rfl
  | some e =>
    have plain := wf.sound.members e (List.mem_of_getElem? found)
    rw [Option.map_some, Option.bind_some, Option.bind_some, toValue_eq, plain,
      if_neg Bool.false_ne_true]

/-- Where the tree has something, so does what it is merged to. -/
theorem WellFormed.follow_of_view (wf : node.WellFormed) (shown : node.view P = some place) :
    ∃ w, node.toValue.follow P = some w ∧ Becomes place w := by
  induction P generalizing node with
  | nil =>
    rw [view] at shown
    rw [← Option.some.inj shown]
    exact ⟨node.toValue, rfl, toValue_becomes node⟩
  | cons s P ih =>
    cases s with
    | key k =>
      have plain : node.array = false := by
        by_contra isArray
        obtain ⟨pairs, tables, -⟩ := wf.sound.isArray (by simpa using isArray)
        rw [view, pairs, tables] at shown
        cases shown
      rw [follow_key plain wf]
      cases found : find node.pairs k with
      | some v =>
        rw [view_pair found] at shown
        split at shown
        · rename_i last
          obtain rfl := Option.some.inj shown
          have absent := contains_eq_false.mp (wf.sound.disjoint k (contains_iff.mpr ⟨v, found⟩))
          rw [absent, last]
          exact ⟨v, rfl, rfl⟩
        · cases shown
      | none =>
        rw [view_key found] at shown
        obtain ⟨child, here, below⟩ := Option.bind_eq_some_iff.mp shown
        rw [here]
        exact ih (wf.child here) below
    | element i =>
      rw [view] at shown
      obtain ⟨e, here, below⟩ := Option.bind_eq_some_iff.mp shown
      have isArray : node.array = true := by
        by_contra plain
        rw [wf.sound.isTable (by simpa using plain)] at here
        cases here
      rw [follow_element isArray wf, here]
      exact ih (wf.member e (List.mem_of_getElem? here)) below

/-- What a tree is merged to has nothing that is neither in the tree nor in one of its values. -/
theorem WellFormed.view_of_follow (wf : node.WellFormed) (found : node.toValue.follow P = some w) :
    node.view P ≠ none ∨ ∃ Q v, Q <+: P ∧ node.view Q = some (.value v) := by
  induction P generalizing node with
  | nil =>
    rw [view]
    exact Or.inl (Option.some_ne_none _)
  | cons s P ih =>
    -- what was found below a node is below this one
    have lift {n : TableNode} (step : ∀ Q, node.view (s :: Q) = n.view Q)
        (h : n.view P ≠ none ∨ ∃ Q v, Q <+: P ∧ n.view Q = some (.value v)) :
        node.view (s :: P) ≠ none ∨ ∃ Q v, Q <+: s :: P ∧ node.view Q = some (.value v) := by
      rcases h with here | ⟨Q, v, front, value⟩
      · exact Or.inl (by rwa [step])
      · exact Or.inr ⟨s :: Q, v, List.cons_prefix_cons.mpr ⟨rfl, front⟩, by rwa [step]⟩
    cases s with
    | key k =>
      have plain : node.array = false := by
        by_contra isArray
        rw [toValue_eq, if_pos (by simpa using isArray)] at found
        cases found
      rw [follow_key plain wf] at found
      cases pair : find node.pairs k with
      | some v => exact Or.inr ⟨[.key k], v, List.prefix_append [_] P, view_value_iff.mpr pair⟩
      | none =>
        rw [pair, Option.or_none] at found
        obtain ⟨u, here, below⟩ := Option.bind_eq_some_iff.mp found
        obtain ⟨child, table, rfl⟩ := Option.map_eq_some_iff.mp here
        exact lift (fun Q => view_child pair table) (ih (wf.child table) below)
    | element i =>
      have isArray : node.array = true := by
        by_contra plain
        rw [toValue_eq, if_neg plain] at found
        cases found
      rw [follow_element isArray wf] at found
      obtain ⟨e, here, below⟩ := Option.bind_eq_some_iff.mp found
      refine lift (fun Q => ?_) (ih (wf.member e (List.mem_of_getElem? here)) below)
      rw [view, here]
      rfl

/-- Every node of a sound tree is sound. -/
theorem WellFormed.nodeAt {n : TableNode} (wf : node.WellFormed) (found : node.nodeAt P = some n) :
    n.WellFormed := by
  induction P generalizing node with
  | nil => exact Option.some.inj found ▸ wf
  | cons s P ih =>
    cases s with
    | key k =>
      obtain ⟨child, here, below⟩ := Option.bind_eq_some_iff.mp found
      exact ih (wf.child here) below
    | element i =>
      obtain ⟨e, here, below⟩ := Option.bind_eq_some_iff.mp found
      exact ih (wf.member e (List.mem_of_getElem? here)) below

end Follow

end TableNode

/-- The tree is sound after any statements, also where the last of them fails. -/
theorem Document.defineAll_wellFormed {d : Document} {L : Layout} (h : d.Shows L)
    (ss : List (Statement × Position)) : (d.defineAll ss).1.root.WellFormed := by
  induction ss generalizing d L with
  | nil => exact h.wellFormed
  | cons s ss ih =>
    obtain ⟨s, pos⟩ := s
    have wf := define_wellFormed h s pos
    have step := define_follows h s pos
    rw [defineAll]
    rcases defined : d.define s pos with ⟨d', e | u⟩
    · rw [defined] at wf
      exact wf
    · rw [defined] at step
      split at step
      · obtain ⟨e, failed⟩ := step
        cases failed
      · exact ih step.2.1

/-! ## Where a pair is -/

/-- The table that parts lead to from another, each array of tables entered at its last element. -/
def addressed (lengths : Path → Nat) (base : Path) : List Text → Path
  | [] => base
  | key :: rest => addressed lengths (enter lengths (base ++ [.key key])) rest

/-- The parts of the last header. -/
def headerOf (ss : List Statement) : List Text :=
  ss.foldl (fun keys s =>
    match s with
    | .pair _ _ => keys
    | .header keyPath _ => keyPath.keys) []

/-- The table that the last header names, with the elements the arrays on the way have by now,
and the dotted key. -/
def pairPath (before : List Statement) (keyPath : KeyPath) : Path :=
  addressed (lengths (placements before)) [] (headerOf before) ++ keyPath.keys.map Segment.key

section Addressed

variable {before after ss : List Statement} {s : Statement} {p : Placement}

theorem enter_resolve (lengths : Path → Nat) (base : Path) (key : Text) (rest : List Text) :
    enter lengths (resolve lengths base key rest).2 = addressed lengths base (key :: rest) := by
  induction rest generalizing base key with
  | nil => rfl
  | cons next rest ih => exact ih (enter lengths (base ++ [.key key])) next

theorem headerOf_pair (ss : List Statement) (keyPath : KeyPath) (val : Value) :
    headerOf (ss ++ [.pair keyPath val]) = headerOf ss := by
  simp [headerOf]

theorem headerOf_header (ss : List Statement) (keyPath : KeyPath) (array : Bool) :
    headerOf (ss ++ [.header keyPath array]) = keyPath.keys := by
  simp [headerOf]

/-- What stands before a statement is not changed by it. -/
theorem placements_split (before : List Statement) (s : Statement) (after : List Statement) :
    ∃ more, placements (before ++ s :: after) =
      placements before ++ placed (placements before) s :: more := by
  induction after using List.reverseRecOn with
  | nil => exact ⟨[], placements_concat before s⟩
  | append_singleton after t ih =>
    obtain ⟨more, same⟩ := ih
    refine ⟨more ++ [placed (placements (before ++ s :: after)) t], ?_⟩
    rw [← List.cons_append, ← List.append_assoc, placements_concat, same, List.append_assoc,
      List.cons_append]

theorem mem_placements (mem : p ∈ placements ss) :
    ∃ before s after, ss = before ++ s :: after ∧ p = placed (placements before) s := by
  induction ss using List.reverseRecOn with
  | nil => cases mem
  | append_singleton ss t ih =>
    rw [placements_concat] at mem
    rcases List.mem_append.mp mem with mem | mem
    · obtain ⟨before, s, after, rfl, placed⟩ := ih mem
      exact ⟨before, s, after ++ [t], by simp, placed⟩
    · exact ⟨ss, t, [], rfl, List.mem_singleton.mp mem⟩

theorem Rules.left {ps qs : List Placement} (rules : Rules (ps ++ qs)) : Rules ps := by
  have inside {p} (mem : p ∈ ps) : p ∈ ps ++ qs := List.mem_append_left _ mem
  refine ⟨(List.pairwise_append.mp rules.valuesOnce).1,
    fun p mem pair q mem' => rules.valuesNoTables p (inside mem) pair q (inside mem'),
    fun p mem pair q mem' => rules.valuesApart p (inside mem) pair q (inside mem'),
    (List.pairwise_append.mp rules.namedOnce).1,
    fun p mem named q mem' => rules.namedTables p (inside mem) named q (inside mem'),
    ?_, (List.pairwise_append.mp rules.dotted).1⟩
  rintro before p after rfl array
  exact rules.arrays before p (after ++ qs) (by simp) array

/-- The table that is open is the one the last header names, as the arrays are by now. -/
theorem openIn_addressed (rules : Rules (placements ss)) :
    openIn (placements ss) = addressed (lengths (placements ss)) [] (headerOf ss) := by
  induction ss using List.reverseRecOn with
  | nil => rfl
  | append_singleton ss s ih =>
    rw [placements_concat] at rules ⊢
    generalize ready : placements ss = ps at ih rules ⊢
    have before := ih rules.left
    rw [openIn_concat]
    have same (P : Path) (other : (placed ps s).isArray = true → (placed ps s).path ≠ P) :
        lengths (ps ++ [placed ps s]) P = lengths ps P := by
      rw [lengths_concat, if_neg (fun both => other both.1 both.2)]
      rfl
    cases s with
    | pair keyPath val =>
      rw [headerOf_pair, show lengths (ps ++ [placed ps (.pair keyPath val)]) = lengths ps from
        funext (fun P => same P nofun)]
      exact before
    | header keyPath array =>
      rw [headerOf_header, KeyPath.keys, ← enter_resolve]
      have passes : ∀ P ∈ (placed ps (.header keyPath array)).passes,
          lengths ps P = lengths (ps ++ [placed ps (.header keyPath array)]) P := by
        intro P mem
        refine (same P (fun _ here => ?_)).symm
        exact absurd (here ▸ (placed_passes_below mem).2.2.2) (Nat.lt_irrefl _)
      have resolved := resolve_congr passes
      rw [← resolved]
      cases array with
      | false =>
        have zero : lengths (ps ++ [placed ps (.header keyPath false)])
            (placed ps (.header keyPath false)).path = 0 := by
          refine lengths_eq_zero.mpr ?_
          intro q mem array here
          exact (rules.namedTables _ (by simp) rfl q mem).2 array here.symm
        exact (enter_of_zero zero).symm
      | true =>
        have length : lengths (ps ++ [placed ps (.header keyPath true)])
            (placed ps (.header keyPath true)).path =
              lengths ps (placed ps (.header keyPath true)).path + 1 := by
          rw [lengths_concat, if_pos ⟨rfl, rfl⟩]
        have entered : enter (lengths (ps ++ [placed ps (.header keyPath true)]))
            (placed ps (.header keyPath true)).path = (placed ps (.header keyPath true)).table := by
          rw [enter, length, if_neg (Nat.succ_ne_zero _)]
          rfl
        exact entered.symm

/-- A pair is at the path that its header and its dotted key make. -/
theorem placed_pairPath {keyPath : KeyPath} {val : Value}
    (rules : Rules (placements (before ++ .pair keyPath val :: after))) :
    (placed (placements before) (.pair keyPath val)).path = pairPath before keyPath := by
  obtain ⟨more, same⟩ := placements_split before (.pair keyPath val) after
  rw [same] at rules
  have plain := passes_plain rules rfl
  rw [pairPath, ← openIn_addressed rules.left]
  exact resolve_plain plain

end Addressed

/-! ## What is in the dictionary -/

/-- What the dictionary of these statements has, and that it has nothing else. -/
structure Holds (d : Dictionary) (ss : List Statement) : Prop where
  /-- Each pair has its value where the pair is. -/
  pair : ∀ before keyPath val after, ss = before ++ .pair keyPath val :: after →
    (Value.dictionary d).follow (pairPath before keyPath) = some val
  /-- No pair is where another is, or below it. -/
  apart : ∀ before keyPath val after before' keyPath' val' after',
    ss = before ++ .pair keyPath val :: after → ss = before' ++ .pair keyPath' val' :: after' →
    pairPath before keyPath <+: pairPath before' keyPath' → before = before'
  /-- What a header or a dotted key names or passes through is a table, -/
  table : ∀ P, (∃ p ∈ placements ss, P ∈ p.tables) → lengths (placements ss) P = 0 →
    ∃ t, (Value.dictionary d).follow P = some (.dictionary t)
  /-- or an array of tables, with an element for each header that adds one. -/
  array : ∀ P, lengths (placements ss) P ≠ 0 → ∃ elements,
    (Value.dictionary d).follow P = some (.array elements) ∧
      elements.length = lengths (placements ss) P
  /-- Whatever the dictionary has besides is in the value of a pair. -/
  only : ∀ P v, (Value.dictionary d).follow P = some v →
    P = [] ∨ (∃ p ∈ placements ss, P ∈ p.tables) ∨ ∃ before keyPath val after,
      ss = before ++ .pair keyPath val :: after ∧ pairPath before keyPath <+: P

section Held

variable {ss : List Statement} {node : TableNode} {P : Path} {v : Value}

theorem placed_pair_of_value {before : List Statement} {s : Statement}
    (value : (placed (placements before) s).value? = some v) :
    ∃ keyPath, s = .pair keyPath v := by
  cases s with
  | pair keyPath val =>
    obtain rfl := Option.some.inj value
    exact ⟨keyPath, rfl⟩
  | header keyPath array => cases value

/-- A place with a value is that of a pair. -/
theorem pair_of_place (rules : Rules (placements ss))
    (value : placeAt (placements ss) P = some (.value v)) :
    ∃ before keyPath after, ss = before ++ .pair keyPath v :: after ∧
      P = pairPath before keyPath := by
  obtain ⟨p, mem, rfl, given⟩ := valueAt_some (placeAt_value value).2.2
  obtain ⟨before, s, after, rfl, rfl⟩ := mem_placements mem
  obtain ⟨keyPath, rfl⟩ := placed_pair_of_value given
  exact ⟨before, keyPath, after, rfl, placed_pairPath rules⟩

theorem mem_of_split {before after : List Statement} {s : Statement}
    (split : ss = before ++ s :: after) : placed (placements before) s ∈ placements ss := by
  obtain ⟨more, same⟩ := placements_split before s after
  rw [split, same]
  simp

/-- A pair is a place with its value. -/
theorem place_of_pair {before after : List Statement} {keyPath : KeyPath} {val : Value}
    (split : ss = before ++ .pair keyPath val :: after) (rules : Rules (placements ss)) :
    placeAt (placements ss) (pairPath before keyPath) = some (.value val) := by
  have mem := mem_of_split split
  have path : (placed (placements before) (.pair keyPath val)).path = pairPath before keyPath :=
    placed_pairPath (split ▸ rules)
  obtain ⟨w, place⟩ := value_place (sequenced_placements _) rules mem rfl
  rw [path] at place
  have given := (valueAt_iff rules.valuesOnce).mpr ⟨_, mem, path, rfl⟩
  rw [place]
  rw [(placeAt_value place).2.2] at given
  rw [Option.some.inj given]

/-- A later pair is at another path. -/
theorem later_pair {before middle after : List Statement} {keyPath keyPath' : KeyPath}
    {val val' : Value} (rules : Rules (placements ss))
    (split : ss = (before ++ .pair keyPath val :: middle) ++ .pair keyPath' val' :: after) :
    (placed (placements before) (.pair keyPath val)).path ≠
      (placed (placements (before ++ .pair keyPath val :: middle)) (.pair keyPath' val')).path := by
  obtain ⟨more, same⟩ := placements_split (before ++ .pair keyPath val :: middle)
    (.pair keyPath' val') after
  have first := @mem_of_split (before ++ .pair keyPath val :: middle) before middle _ rfl
  have once := rules.valuesOnce
  rw [split, same] at once
  exact (List.pairwise_append.mp once).2.2 _ first _ List.mem_cons_self rfl rfl

theorem pairs_apart {before after before' after' : List Statement} {keyPath keyPath' : KeyPath}
    {val val' : Value} (rules : Rules (placements ss))
    (split : ss = before ++ .pair keyPath val :: after)
    (split' : ss = before' ++ .pair keyPath' val' :: after')
    (front : pairPath before keyPath <+: pairPath before' keyPath') : before = before' := by
  have path : (placed (placements before) (.pair keyPath val)).path = pairPath before keyPath :=
    placed_pairPath (split ▸ rules)
  have path' : (placed (placements before') (.pair keyPath' val')).path =
      pairPath before' keyPath' := placed_pairPath (split' ▸ rules)
  rw [← path, ← path'] at front
  have same := rules.valuesApart _ (mem_of_split split) rfl _ (mem_of_split split') rfl front
  rcases List.append_eq_append_iff.mp (split.symm.trans split') with
    ⟨more, here, rest⟩ | ⟨more, here, rest⟩
  · cases more with
    | nil => rw [here, List.append_nil]
    | cons s more =>
      obtain ⟨rfl, -⟩ := List.cons.inj rest
      subst here
      exact absurd same (later_pair rules split')
  · cases more with
    | nil => rw [here, List.append_nil]
    | cons s more =>
      obtain ⟨rfl, -⟩ := List.cons.inj rest
      subst here
      exact absurd same.symm (later_pair rules split)

/-- What a tree is merged to that shows what the placements tell. -/
theorem holds_of_view (rules : Rules (placements ss)) (wf : node.WellFormed)
    (plain : node.array = false) (view : node.view = placeAt (placements ss)) :
    Holds node.mergeTables ss := by
  have root : Value.dictionary node.mergeTables = node.toValue := by
    rw [TableNode.toValue_eq, plain, if_neg Bool.false_ne_true]
  constructor
  · intro before keyPath val after split
    have place := place_of_pair split rules
    rw [← view] at place
    obtain ⟨w, found, rfl⟩ := wf.follow_of_view place
    rw [root, found]
  · intro before keyPath val after before' keyPath' val' after' split split' front
    exact pairs_apart rules split split' front
  · intro P named zero
    have mention := mentioned_iff.mpr (Or.inr named)
    have place : node.view P = some (.table
        ((placements ss).any (fun p => p.isNamed && p.path == P))
        ((placements ss).any (fun p => p.isPair && p.passes.contains P))) := by
      rw [view, placeAt, if_neg (not_not.mpr zero), if_pos mention]
    obtain ⟨w, found, d, rfl⟩ := wf.follow_of_view place
    rw [root]
    exact ⟨d, found⟩
  · intro P some
    have place : node.view P = Option.some (.array (lengths (placements ss) P)) := by
      rw [view]
      exact placeAt_array.mpr ⟨rfl, some⟩
    obtain ⟨w, found, elements, rfl, length⟩ := wf.follow_of_view place
    rw [root]
    exact ⟨elements, found, length⟩
  · intro P v found
    rw [root] at found
    have inPair {Q : Path} {u : Value} (value : node.view Q = some (.value u)) (front : Q <+: P) :
        ∃ before keyPath val after,
          ss = before ++ .pair keyPath val :: after ∧ pairPath before keyPath <+: P := by
      rw [view] at value
      obtain ⟨before, keyPath, after, split, rfl⟩ := pair_of_place rules value
      exact ⟨before, keyPath, u, after, split, front⟩
    rcases wf.view_of_follow found with present | ⟨Q, u, front, value⟩
    · by_cases empty : P = []
      · exact Or.inl empty
      · right
        by_cases named : ∃ p ∈ placements ss, P ∈ p.tables
        · exact Or.inl named
        · rw [view, ne_eq, placeAt_none_iff empty] at present
          have pair : ∃ p ∈ placements ss, p.isPair = true ∧ p.path = P := by
            by_contra none
            exact present fun p mem => ⟨fun inTables => named ⟨p, mem, inTables⟩,
              fun pair same => none ⟨p, mem, pair, same⟩⟩
          obtain ⟨p, mem, pair, rfl⟩ := pair
          obtain ⟨u, value⟩ := value_place (sequenced_placements ss) rules mem pair
          rw [← view] at value
          exact Or.inr (inPair value List.prefix_rfl)
    · exact Or.inr (Or.inr (inPair value front))

end Held

theorem holds_of_defined {read : List (Statement × Position)} {d : Document}
    (all : Document.start.defineAll read = (d, .ok ())) :
    Holds d.root.mergeTables (read.map Prod.fst) := by
  have shows := Document.shows_of_defined all
  exact holds_of_view ((Document.defined_iff read).mp ⟨d, all⟩) shows.wellFormed shows.plain
    (funext fun P => (shows.shown P).symm)

/-! ## Inline tables -/

/-- The loop of `parse_inline_table` once its pairs are read, up to the first it refuses. -/
def TableNode.addPairs (node : TableNode) :
    List ((KeyPath × Value) × Position) → TableNode × Except Error Unit
  | [] => (node, .ok ())
  | ((keyPath, val), pos) :: rest =>
    match node.addPair keyPath val pos with
    | (node, .error e) => (node, .error e)
    | (node, .ok ()) => node.addPairs rest

def pairStatement (p : (KeyPath × Value) × Position) : Statement × Position :=
  (.pair p.1.1 p.1.2, p.2)

/-- An inline table is a document of pairs below its root. -/
theorem addPairs_eq (node : TableNode) (pairs : List ((KeyPath × Value) × Position)) :
    (Document.mk node []).defineAll (pairs.map pairStatement) =
      (⟨(node.addPairs pairs).1, []⟩, (node.addPairs pairs).2) := by
  induction pairs generalizing node with
  | nil => rfl
  | cons p pairs ih =>
    obtain ⟨⟨keyPath, val⟩, pos⟩ := p
    have step : (Document.mk node []).define (.pair keyPath val) pos =
        (⟨(node.addPair keyPath val pos).1, []⟩, (node.addPair keyPath val pos).2) := rfl
    rw [List.map_cons, pairStatement, Document.defineAll, step, TableNode.addPairs]
    rcases node.addPair keyPath val pos with ⟨node', e | u⟩
    · rfl
    · exact ih node'

namespace Cursor

/-- The pairs of an inline table, from the first to behind the brace. -/
inductive ReadsPairs : Cursor → List ((KeyPath × Value) × Position) → Cursor → Prop
  | last {c d : Cursor} {p : KeyPath × Value} {turns : Nat}
    (read : parseKeyValue turns c = .ok (p, d)) (brace : d.skipWhitespace.currentChar = ch '}') :
    ReadsPairs c [(p, c.position)] d.skipWhitespace.advance
  | next {c d e : Cursor} {p : KeyPath × Value} {turns : Nat}
    {pairs : List ((KeyPath × Value) × Position)} (read : parseKeyValue turns c = .ok (p, d))
    (comma : d.skipWhitespace.currentChar = ch ',')
    (rest : ReadsPairs d.skipWhitespace.advance.skipWhitespace pairs e) :
    ReadsPairs c ((p, c.position) :: pairs) e

/-- The pairs between the braces of an inline table. -/
def ReadsInline (c : Cursor) (pairs : List ((KeyPath × Value) × Position)) (e : Cursor) : Prop :=
  c.currentChar = ch '{' ∧
    ((c.advance.skipWhitespace.currentChar = ch '}' ∧ pairs = [] ∧
        e = c.advance.skipWhitespace.advance) ∨
      c.advance.skipWhitespace.ReadsPairs pairs e)

variable {c e : Cursor} {turns : Nat}

theorem inlinePairs_ok {node result : TableNode}
    (h : inlinePairs turns c node = .ok (result, e)) :
    ∃ pairs, c.ReadsPairs pairs e ∧ node.addPairs pairs = (result, .ok ()) := by
  induction turns generalizing c node with
  | zero => cases h
  | succ turns ih =>
    rw [inlinePairs] at h
    split at h
    · cases h
    · rename_i keyPath val d read
      split at h
      · cases h
      · rename_i after added
        simp only at h
        split at h
        · cases h
        · split at h
          · rename_i comma
            obtain ⟨pairs, rest, all⟩ := ih h
            refine ⟨((keyPath, val), c.position) :: pairs, .next read comma rest, ?_⟩
            rw [TableNode.addPairs, added]
            exact all
          · split at h
            · rename_i brace
              obtain ⟨rfl, rfl⟩ := Prod.mk.inj (Except.ok.inj h)
              refine ⟨[((keyPath, val), c.position)], .last read brace, ?_⟩
              rw [TableNode.addPairs, added]
              rfl
            · cases h

/-- An inline table has what its pairs put there, and nothing else. -/
theorem parseInlineTable_holds {v : Value} (h : parseInlineTable turns c = .ok (v, e)) :
    ∃ pairs d, v = .dictionary d ∧ c.ReadsInline pairs e ∧
      Holds d (pairs.map (fun p => .pair p.1.1 p.1.2)) := by
  cases turns with
  | zero => cases h
  | succ turns =>
    rw [parseInlineTable] at h
    split at h
    · cases h
    · rename_i brace
      have brace : c.currentChar = ch '{' := by simpa using brace
      simp only at h
      split at h
      · rename_i closed
        obtain ⟨rfl, rfl⟩ := Prod.mk.inj (Except.ok.inj h)
        have empty : Document.start.defineAll [] = (Document.start, .ok ()) := rfl
        exact ⟨[], [], rfl, ⟨brace, Or.inl ⟨closed, rfl, rfl⟩⟩, holds_of_defined empty⟩
      · rcases read : inlinePairs turns c.advance.skipWhitespace TableNode.fresh with
          stop | ⟨result, e'⟩
        · rw [read] at h
          cases h
        rw [read] at h
        obtain ⟨rfl, rfl⟩ := Prod.mk.inj (Except.ok.inj h)
        obtain ⟨pairs, reads, all⟩ := inlinePairs_ok read
        have defined := addPairs_eq TableNode.fresh pairs
        rw [all] at defined
        have held := holds_of_defined defined
        rw [List.map_map] at held
        exact ⟨pairs, result.mergeTables, rfl, ⟨brace, Or.inr reads⟩, held⟩

end Cursor

/-! ## No pair is lost -/

theorem disjoint_of_wellFormed {root : TableNode} (wf : root.WellFormed) {P : Path}
    {node : TableNode} (found : root.nodeAt P = some node) (k : Text) :
    ¬ (OrderedMap.contains node.pairs k = true ∧ OrderedMap.contains node.tables k = true) := by
  rintro ⟨pair, table⟩
  rw [(wf.nodeAt found).sound.disjoint k pair] at table
  cases table

/-- Whatever statements were read, no key of a node is both that of a pair and that of a table.
The dictionary of an accepted document has one leaf for each of its pairs, at the path of the
pair, the tables and the elements that headers and dotted keys name or pass through, and nothing
else. All of this holds of inline tables as well. -/
theorem pairs_kept :
    (∀ (read : List (Statement × Position)) (P : Path) (node : TableNode),
      (Document.start.defineAll read).1.root.nodeAt P = some node → ∀ k,
        ¬ (OrderedMap.contains node.pairs k = true ∧ OrderedMap.contains node.tables k = true)) ∧
    (∀ (pairs : List ((KeyPath × Value) × Position)) (P : Path) (node : TableNode),
      (TableNode.fresh.addPairs pairs).1.nodeAt P = some node → ∀ k,
        ¬ (OrderedMap.contains node.pairs k = true ∧ OrderedMap.contains node.tables k = true)) ∧
    (∀ (x : Text) (result : Dictionary), (Cursor.start x).parse = .ok result →
      ∃ read, (Cursor.start x).Spells read ∧ Holds result (read.map Prod.fst)) ∧
    ∀ (turns : Nat) (c e : Cursor) (v : Value), Cursor.parseInlineTable turns c = .ok (v, e) →
      ∃ pairs d, v = .dictionary d ∧ c.ReadsInline pairs e ∧
        Holds d (pairs.map (fun p => .pair p.1.1 p.1.2)) := by
  have sound (read : List (Statement × Position)) :
      (Document.start.defineAll read).1.root.WellFormed :=
    Document.defineAll_wellFormed Document.Shows.start read
  refine ⟨?_, ?_, ?_, ?_⟩
  · intro read P node found
    exact disjoint_of_wellFormed (sound read) found
  · intro pairs P node found
    have wf := sound (pairs.map pairStatement)
    rw [Document.start, addPairs_eq] at wf
    exact disjoint_of_wellFormed wf found
  · intro x result accepted
    obtain ⟨read, d, spells, all, rfl⟩ := Cursor.parse_ok_iff.mp accepted
    exact ⟨read, spells, holds_of_defined all⟩
  · intro turns c e v done
    exact Cursor.parseInlineTable_holds done

/-- A dotted key below an element of an array of tables. -/
theorem pairs_kept_element : ∃ read,
    (Cursor.start ("[[a]]\nb.c=true".toList.map ch)).Spells read ∧
      Holds [([ch 'a'], .array [.dictionary [([ch 'b'],
        .dictionary [([ch 'c'], .boolean true)])]])] (read.map Prod.fst) :=
  pairs_kept.2.2.1 _ _ rfl

end Dross
