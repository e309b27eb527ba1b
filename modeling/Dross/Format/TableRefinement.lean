import Dross.Format.TableLayout

/-!
# The tree follows its view

Each operation on the tree succeeds exactly where the operation on the view
does, and then shows the view it leaves. Whether it succeeds or not, every node
of the tree stays sound.
-/

namespace Dross

namespace TableNode

open OrderedMap

/-! ## Soundness is kept -/

theorem addKey_wellFormed {table : TableNode} (h : table.WellFormed) (plain : table.array = false)
    (key : Text) (val : Value) (pos : Position) :
    (table.addKey key val pos).1.WellFormed ∧ (table.addKey key val pos).1.array = false := by
  unfold addKey
  split
  · exact ⟨h, plain⟩
  · rename_i absent
    unfold addDictionaryKey
    split
    · rename_i e failed
      exact ⟨h, plain⟩
    · rename_i pairs added
      split at added
      · cases added
      · obtain rfl := Except.ok.inj added
        have missing := contains_eq_false.mp (Bool.eq_false_iff.mpr absent)
        exact ⟨h.setPairs missing plain val, plain⟩

theorem addPairParts_wellFormed {table : TableNode} (h : table.WellFormed)
    (plain : table.array = false) (key : Text) (rest : List Text) (val : Value) (pos : Position) :
    (table.addPairParts key rest val pos).1.WellFormed ∧
      (table.addPairParts key rest val pos).1.array = false := by
  induction rest generalizing table key with
  | nil => exact addKey_wellFormed h plain key val pos
  | cons next rest ih =>
    unfold addPairParts
    split
    · exact ⟨h, plain⟩
    · rename_i noPair
      have absent := contains_eq_false.mp (Bool.eq_false_iff.mpr noPair)
      split
      · exact ⟨h.setTable absent plain (ih (WellFormed.fresh true) rfl next).1, plain⟩
      · rename_i child found
        split
        · rename_i dotted
          have childPlain : child.array = false := by
            by_contra array
            have := ((h.child found).sound.isArray (by simpa using array)).2.2.1
            rw [dotted] at this
            cases this
          exact ⟨h.setTable absent plain (ih (h.child found) childPlain next).1, plain⟩
        · exact ⟨h, plain⟩

/-- The table a header comes to: sound, but for an array that is still empty. -/
def Named (table : TableNode) (array : Bool) : Prop :=
  table.WellFormed ∨ (array = true ∧ table = { fresh with array := true })

theorem nameTable_wellFormed {table : TableNode} {array : Bool} (h : table.Named array)
    (headerStart : Position) : (table.nameTable array headerStart).1.WellFormed := by
  have element : ∀ e ∈ [fresh], e.WellFormed ∧ e.array = false := by
    intro e mem
    rw [List.mem_singleton.mp mem]
    exact ⟨WellFormed.fresh false, rfl⟩
  rcases h with h | ⟨rfl, rfl⟩
  · unfold nameTable
    split
    · split
      · exact h
      · rename_i isArray
        refine h.setElements (by simpa using isArray) (by simp) ?_
        intro e mem
        rcases List.mem_append.mp mem with mem | mem
        · exact ⟨h.member e mem, h.sound.members e mem⟩
        · exact element e mem
    · split
      · exact h
      · exact ⟨⟨h.sound.disjoint, h.sound.sorted, h.sound.isArray, h.sound.isTable,
          h.sound.members⟩, fun _ _ => h.child, h.member⟩
  · exact ⟨⟨nofun, ⟨sorted_nil, sorted_nil⟩, fun _ => ⟨rfl, rfl, rfl, by simp [nameTable]⟩, nofun,
      fun e mem => (element e mem).2⟩, nofun, fun e mem => (element e mem).1⟩

theorem lastElement_mem {table : TableNode} (nonempty : table.elements ≠ []) :
    table.elements = table.elements.dropLast ++ [table.lastElement] := by
  rw [lastElement, List.getLast?_eq_some_getLast nonempty, Option.getD_some,
    List.dropLast_append_getLast]

theorem openTableParts_wellFormed {table : TableNode} (h : table.WellFormed)
    (plain : table.array = false) (key : Text) (rest : List Text) (array : Bool)
    (headerStart : Position) :
    (table.openTableParts key rest array headerStart).1.WellFormed ∧
      (table.openTableParts key rest array headerStart).1.array = false := by
  induction rest generalizing table key with
  | nil =>
    unfold openTableParts
    split
    · exact ⟨h, plain⟩
    · rename_i noPair
      have absent := contains_eq_false.mp (Bool.eq_false_iff.mpr noPair)
      refine ⟨h.setTable absent plain (nameTable_wellFormed ?_ headerStart), plain⟩
      cases found : find table.tables key with
      | some child => exact Or.inl (h.child found)
      | none =>
        cases array with
        | false => exact Or.inl (WellFormed.fresh false)
        | true => exact Or.inr ⟨rfl, rfl⟩
  | cons next rest ih =>
    unfold openTableParts
    split
    · exact ⟨h, plain⟩
    · rename_i noPair
      have absent := contains_eq_false.mp (Bool.eq_false_iff.mpr noPair)
      have child : ((find table.tables key).getD
          { fresh with array := array && (next :: rest).isEmpty }).WellFormed := by
        cases found : find table.tables key with
        | some child => exact h.child found
        | none =>
          simp only [List.isEmpty_cons, Bool.and_false, Option.getD_none]
          exact WellFormed.fresh false
      generalize (find table.tables key).getD
          { fresh with array := array && (next :: rest).isEmpty } = c at child ⊢
      simp only
      split
      · rename_i isArray
        have nonempty := (child.sound.isArray isArray).2.2.2
        have split := lastElement_mem nonempty
        have last : c.lastElement ∈ c.elements := by
          rw [split]
          simp
        have opened := ih (child.member _ last) (child.sound.members _ last) next
        refine ⟨h.setTable absent plain (child.setElements isArray (by simp) ?_), plain⟩
        intro e mem
        rcases List.mem_append.mp mem with mem | mem
        · have mem := List.dropLast_subset _ mem
          exact ⟨child.member e mem, child.sound.members e mem⟩
        · rw [List.mem_singleton.mp mem]
          exact opened
      · rename_i isTable
        exact ⟨h.setTable absent plain (ih child (by simpa using isTable) next).1, plain⟩

/-! ## Pairs -/

/-- A pair was added where the view takes it, and refused where it does not. -/
def Added (r : TableNode × Except Error Unit) (L : Layout) (B : Path) : Option Layout → Prop
  | none => ∃ e, r.2 = .error e
  | some M => r.2 = .ok () ∧ r.1.ShownBy M B ∧ Layout.Frame L M B

section Pairs

variable {table : TableNode} {L : Layout} {B : Path}

theorem shown_name (h : table.ShownBy L B) (key : Text) :
    L (B ++ [.key key]) = table.view [.key key] := h [.key key]

theorem view_name_none {key : Text} (noPair : find table.pairs key = none)
    (missing : find table.tables key = none) : table.view [.key key] = none := by
  rw [view_key noPair, missing]
  rfl

theorem fresh_view (dotted array : Bool) (s : Segment) (P : Path) :
    ({ fresh with dotted := dotted, array := array } : TableNode).view (s :: P) = none := by
  cases s <;> rfl

theorem addKey_added (h : table.ShownBy L B) (key : Text) (val : Value) (pos : Position) :
    Added (table.addKey key val pos) L B (L.addPair B key [] val) := by
  rw [Layout.addPair]
  simp only [shown_name h]
  cases isPair : find table.pairs key with
  | some v =>
    rw [view_pair isPair, if_pos rfl]
    unfold addKey
    split
    · exact ⟨_, rfl⟩
    · rw [addDictionaryKey, if_pos (contains_iff.mpr ⟨v, isPair⟩)]
      exact ⟨_, rfl⟩
  | none =>
    cases isTable : find table.tables key with
    | some child =>
      rw [view_child isPair isTable, view]
      rw [addKey, if_pos (contains_iff.mpr ⟨child, isTable⟩)]
      exact ⟨_, rfl⟩
    | none =>
      rw [view_name_none isPair isTable, addKey,
        if_neg (by simp [contains, isTable]), addDictionaryKey, if_neg (by simp [contains, isPair])]
      refine ⟨rfl, ?_, (Layout.frame_put _ _ _).up⟩
      intro P
      cases P with
      | nil =>
        rw [Layout.put_ne (by simp), h]
        rfl
      | cons s P =>
        cases s with
        | element i =>
          rw [Layout.put_ne (by simp), h]
          rfl
        | key j =>
          by_cases same : j = key
          · subst same
            rw [view_pair (find_set_self _ _ _)]
            split
            · rename_i empty
              rw [empty, Layout.put_self]
            · rename_i nonempty
              rw [Layout.put_ne (by simpa using nonempty), h, view_key isPair, isTable]
              rfl
          · rw [Layout.put_ne (by simp [same]), h]
            simp only [view, find_set_ne same]

theorem addPairParts_added (wf : table.WellFormed) (h : table.ShownBy L B) (key : Text)
    (rest : List Text) (val : Value) (pos : Position) :
    Added (table.addPairParts key rest val pos) L B (L.addPair B key rest val) := by
  induction rest generalizing table L B key with
  | nil => exact addKey_added h key val pos
  | cons next rest ih =>
    -- what is done below the first part is done to the tree
    have below : ∀ {child : TableNode} {M : Layout} {o : Option Layout},
        find table.pairs key = none → Layout.Frame L M (B ++ [.key key]) →
        Added (child.addPairParts next rest val pos) M (B ++ [.key key]) o →
        Added (table.setTable key (child.addPairParts next rest val pos).1,
          (child.addPairParts next rest val pos).2) L B o := by
      intro child M o noPair frame added
      cases o with
      | none => exact added
      | some N =>
        obtain ⟨ok, shown, frame'⟩ := added
        exact ⟨ok, h.setTable noPair shown (frame.trans frame'), (frame.trans frame').up⟩
    rw [Layout.addPair, addPairParts]
    simp only [shown_name h]
    cases isPair : find table.pairs key with
    | some v =>
      rw [view_pair isPair, if_pos rfl, if_pos (contains_iff.mpr ⟨v, isPair⟩)]
      exact ⟨_, rfl⟩
    | none =>
      rw [if_neg (by simp [contains, isPair])]
      cases isTable : find table.tables key with
      | none =>
        have absent := view_name_none isPair isTable
        rw [absent]
        exact below isPair (Layout.frame_put _ _ _)
          (ih (WellFormed.fresh true) (h.created isPair isTable (fresh_view true false)) next)
      | some child =>
        rw [view_child isPair isTable, view, place]
        cases array : child.array with
        | true =>
          simp only [if_true, ((wf.child isTable).sound.isArray array).2.2.1, Bool.false_eq_true,
            if_false]
          exact ⟨_, rfl⟩
        | false =>
          cases dotted : child.dotted with
          | false =>
            simp only [dotted, Bool.false_eq_true, if_false]
            exact ⟨_, rfl⟩
          | true =>
            simp only [dotted, Bool.false_eq_true, if_false, if_true]
            exact below isPair Layout.Frame.refl
              (ih (wf.child isTable) (h.child isPair isTable) next)

end Pairs

/-! ## Headers -/

/-- A table was opened where the view opens it, and refused where it does not. -/
def Opened (r : TableNode × Except Error Path) (L : Layout) (B : Path) :
    Option (Layout × Path) → Prop
  | none => ∃ e, r.2 = .error e
  | some (M, table) => ∃ P, r.2 = .ok P ∧ table = B ++ P ∧ r.1.ShownBy M B ∧ Layout.Frame L M B

section Headers

variable {table : TableNode} {L : Layout} {B : Path}

/-- A table with a new element at the end of its array. -/
theorem shown_push (h : table.ShownBy L B) (isArray : table.array = true) :
    ({ table with elements := table.elements ++ [fresh] } : TableNode).ShownBy
      ((L.put B (.array (table.elements.length + 1))).put
        (B ++ [.element table.elements.length]) (.table false false)) B := by
  intro P
  cases P with
  | nil =>
    rw [Layout.put_ne (by simp), List.append_nil, Layout.put_self]
    simp [view, place, isArray]
  | cons s P =>
    have other : B ++ s :: P ≠ B := by simp
    cases s with
    | key j =>
      rw [Layout.put_ne (by simp), Layout.put_ne other, h]
      rfl
    | element i =>
      rcases Nat.lt_trichotomy i table.elements.length with before | rfl | after
      · rw [Layout.put_ne (by simp [before.ne]), Layout.put_ne other, h]
        simp only [view, List.getElem?_append_left before]
      · have last : (table.elements ++ [fresh])[table.elements.length]? = some fresh := by simp
        cases P with
        | nil =>
          rw [Layout.put_self]
          simp only [view, last, Option.bind_some]
          rfl
        | cons t P =>
          rw [Layout.put_ne (by simp), Layout.put_ne other, h]
          simp only [view, last, Option.bind_some, List.getElem?_eq_none (Nat.le_refl _),
            Option.bind_none]
          cases t <;> rfl
      · rw [Layout.put_ne (by simp [after.ne']), Layout.put_ne other, h]
        have none : (table.elements ++ [fresh])[i]? = none :=
          List.getElem?_eq_none (by simpa using after)
        simp only [view, none, List.getElem?_eq_none after.le, Option.bind_none]

theorem shown_named (h : table.ShownBy L B) (isTable : table.array = false) :
    ({ table with named := true } : TableNode).ShownBy (L.put B (.table true table.dotted)) B := by
  intro P
  cases P with
  | nil =>
    rw [List.append_nil, Layout.put_self]
    simp [view, place, isTable]
  | cons s P =>
    rw [Layout.put_ne (by simp), h]
    cases s <;> rfl

/-- What was opened below a key, as seen from the table the key is in. -/
theorem Opened.key {child : TableNode} {r : Except Error Path} {M : Layout} {key : Text}
    {o : Option (Layout × Path)} (h : table.ShownBy L B) (noPair : find table.pairs key = none)
    (frame : Layout.Frame L M (B ++ [.key key]))
    (opened : Opened (child, r) M (B ++ [.key key]) o) :
    Opened (table.setTable key child, r.map ([.key key] ++ ·)) L B o := by
  cases o with
  | none =>
    obtain ⟨e, failed⟩ := opened
    exact ⟨e, by rw [show r = .error e from failed]; rfl⟩
  | some o =>
    obtain ⟨N, address⟩ := o
    obtain ⟨P, ok, rfl, shown, frame'⟩ := opened
    refine ⟨[.key key] ++ P, ?_, by simp, h.setTable noPair shown (frame.trans frame'),
      (frame.trans frame').up⟩
    rw [show r = .ok P from ok]
    rfl

/-- What was opened below an element, as seen from its array. -/
theorem Opened.element {e : TableNode} {r : Except Error Path} {i : Nat}
    {o : Option (Layout × Path)} (h : table.ShownBy L B) (inside : i < table.elements.length)
    (opened : Opened (e, r) L (B ++ [.element i]) o) :
    Opened ({ table with elements := table.elements.set i e }, r.map ([.element i] ++ ·)) L B o := by
  cases o with
  | none =>
    obtain ⟨e, failed⟩ := opened
    exact ⟨e, by rw [show r = .error e from failed]; rfl⟩
  | some o =>
    obtain ⟨N, address⟩ := o
    obtain ⟨P, ok, rfl, shown, frame⟩ := opened
    refine ⟨[.element i] ++ P, ?_, by simp, h.setElement inside shown frame, frame.up⟩
    rw [show r = .ok P from ok]
    rfl

theorem set_last {e : TableNode} (nonempty : table.elements ≠ []) :
    table.elements.set (table.elements.length - 1) e = table.elements.dropLast ++ [e] := by
  obtain ⟨front, last, split⟩ : ∃ front last, table.elements = front ++ [last] :=
    ⟨_, _, lastElement_mem nonempty⟩
  simp [split]

theorem getElem?_last (nonempty : table.elements ≠ []) :
    table.elements[table.elements.length - 1]? = some table.lastElement := by
  rw [← List.getLast?_eq_getElem?, lastElement, List.getLast?_eq_some_getLast nonempty]
  rfl

theorem nameTable_opened (h : table.ShownBy L B) (array : Bool) (headerStart : Position) :
    Opened (table.nameTable array headerStart) L B (L.nameTable B array) := by
  have shown : L B = some table.place := by
    have root := h []
    rwa [List.append_nil] at root
  unfold Layout.nameTable
  rw [shown]
  obtain ⟨pairs, tables, named, dotted, isArray, elements⟩ := table
  cases isArray with
  | true =>
    cases array with
    | true =>
      exact ⟨[.element elements.length], rfl, rfl, shown_push h rfl,
        (Layout.frame_put L B _).trans (Layout.frame_put _ _ _).up⟩
    | false => exact ⟨createError "Table defined twice" headerStart, by simp [nameTable]⟩
  | false =>
    cases array with
    | true => exact ⟨createError "Table defined twice" headerStart, rfl⟩
    | false =>
      cases named with
      | true => exact ⟨createError "Table defined twice" headerStart, rfl⟩
      | false =>
        cases dotted with
        | true => exact ⟨createError "Table defined twice" headerStart, rfl⟩
        | false => exact ⟨[], rfl, by simp, shown_named h rfl, Layout.frame_put _ _ _⟩

theorem map_step (r : Except Error Path) (s t : Segment) :
    (r.map ([t] ++ ·)).map ([s] ++ ·) = r.map ([s, t] ++ ·) := by
  cases r <;> rfl

/-- The name an array of tables gets before it has an element. -/
theorem nameTable_created (h : table.ShownBy L B) {key : Text}
    (noPair : find table.pairs key = none) (missing : find table.tables key = none)
    (array : Bool) (headerStart : Position) :
    Opened (({ fresh with array := array } : TableNode).nameTable array headerStart) L
      (B ++ [.key key]) (L.nameTable (B ++ [.key key]) array) := by
  have none : L (B ++ [.key key]) = none := by rw [shown_name h, view_name_none noPair missing]
  have created := h.created noPair missing (fresh_view false array)
  unfold Layout.nameTable
  rw [none]
  cases array with
  | false =>
    have shown := shown_named created rfl
    rw [Layout.put_put] at shown
    exact ⟨[], rfl, by simp, shown, Layout.frame_put _ _ _⟩
  | true =>
    have shown := shown_push created rfl
    rw [Layout.put_put] at shown
    exact ⟨[.element 0], rfl, rfl, shown, (Layout.frame_put L _ _).trans (Layout.frame_put _ _ _).up⟩

theorem openTableParts_opened (wf : table.WellFormed) (h : table.ShownBy L B) (key : Text)
    (rest : List Text) (array : Bool) (headerStart : Position) :
    Opened (table.openTableParts key rest array headerStart) L B
      (L.openTable B key rest array) := by
  induction rest generalizing table L B key with
  | nil =>
    rw [Layout.openTable, openTableParts]
    cases isPair : find table.pairs key with
    | some v =>
      rw [if_pos (contains_iff.mpr ⟨v, isPair⟩)]
      unfold Layout.nameTable
      rw [shown_name h, view_pair isPair, if_pos rfl]
      cases array <;> exact ⟨_, rfl⟩
    | none =>
      rw [if_neg (by simp [contains, isPair])]
      simp only [List.isEmpty_nil, Bool.and_true]
      cases isTable : find table.tables key with
      | none =>
        exact (nameTable_created h isPair isTable array headerStart).key h isPair
          Layout.Frame.refl
      | some child =>
        exact (nameTable_opened (h.child isPair isTable) array headerStart).key h isPair
          Layout.Frame.refl
  | cons next rest ih =>
    rw [Layout.openTable, openTableParts]
    simp only [shown_name h]
    cases isPair : find table.pairs key with
    | some v =>
      rw [view_pair isPair, if_pos rfl, if_pos (contains_iff.mpr ⟨v, isPair⟩)]
      exact ⟨_, rfl⟩
    | none =>
      rw [if_neg (by simp [contains, isPair])]
      cases isTable : find table.tables key with
      | none =>
        have absent := view_name_none isPair isTable
        rw [absent]
        simp only [Option.getD_none, List.isEmpty_cons, Bool.and_false, fresh, Bool.false_eq_true,
          if_false]
        exact (ih (WellFormed.fresh false) (h.created isPair isTable (fresh_view false false)) next).key h isPair
          (Layout.frame_put _ _ _)
      | some child =>
        have wfChild := wf.child isTable
        have shown := h.child isPair isTable
        rw [view_child isPair isTable, view, place]
        by_cases isArray : child.array = true
        · have nonempty := (wfChild.sound.isArray isArray).2.2.2
          have positive := List.length_pos_iff.mpr nonempty
          have last := getElem?_last nonempty
          have opened := (ih (wfChild.member _ (List.mem_of_getElem? last))
            (shown.element last) next).element shown (by omega)
          rw [set_last nonempty] at opened
          rw [Option.getD_some, if_pos isArray, if_pos isArray, ← map_step]
          exact opened.key h isPair Layout.Frame.refl
        · rw [Option.getD_some, if_neg isArray, if_neg isArray]
          exact (ih wfChild shown next).key h isPair Layout.Frame.refl

end Headers

/-! ## Through a path -/

section Paths

variable {node new : TableNode} {L M : Layout} {B P : Path}

/-- A child is found under its key, where there is no pair. -/
theorem WellFormed.noPair (h : node.WellFormed) {k : Text} {child : TableNode}
    (found : find node.tables k = some child) : find node.pairs k = none := by
  cases isPair : find node.pairs k with
  | none => rfl
  | some v =>
    have := h.sound.disjoint k (contains_iff.mpr ⟨v, isPair⟩)
    rw [contains_eq_false, found] at this
    cases this

/-- Where the view has a table, there is a node that is one. -/
theorem nodeAt_of_view (wf : node.WellFormed) (h : node.ShownBy L B) {named dotted : Bool}
    (view : node.view P = some (.table named dotted)) :
    ∃ n, node.nodeAt P = some n ∧ n.WellFormed ∧ n.array = false ∧ n.ShownBy L (B ++ P) := by
  induction P generalizing node B with
  | nil =>
    refine ⟨node, rfl, wf, ?_, by simpa using h⟩
    simp only [TableNode.view, place, Option.some.injEq] at view
    by_contra isArray
    rw [if_pos (by simpa using isArray)] at view
    cases view
  | cons s P ih =>
    cases s with
    | key k =>
      rw [TableNode.view] at view
      cases isPair : find node.pairs k with
      | some v =>
        rw [isPair] at view
        simp only at view
        split at view <;> cases view
      | none =>
        rw [isPair] at view
        obtain ⟨child, found, below⟩ := Option.bind_eq_some_iff.mp view
        obtain ⟨n, at_, wfN, plain, shown⟩ := ih (wf.child found) (h.child isPair found) below
        refine ⟨n, ?_, wfN, plain, by simpa using shown⟩
        rw [nodeAt, found]
        exact at_
    | element i =>
      rw [TableNode.view] at view
      obtain ⟨child, found, below⟩ := Option.bind_eq_some_iff.mp view
      obtain ⟨n, at_, wfN, plain, shown⟩ :=
        ih (wf.member _ (List.mem_of_getElem? found)) (h.element found) below
      refine ⟨n, ?_, wfN, plain, by simpa using shown⟩
      rw [nodeAt, found]
      exact at_

theorem replaceAt_shown (wf : node.WellFormed) (h : node.ShownBy L B) {n : TableNode}
    (found : node.nodeAt P = some n) (changed : new.ShownBy M (B ++ P))
    (frame : Layout.Frame L M (B ++ P)) : (node.replaceAt P new).ShownBy M B := by
  induction P generalizing node B with
  | nil => simpa [replaceAt] using changed
  | cons s P ih =>
    cases s with
    | key k =>
      rw [nodeAt] at found
      obtain ⟨child, isTable, below⟩ := Option.bind_eq_some_iff.mp found
      have noPair := wf.noPair isTable
      have inner := ih (wf.child isTable) (h.child noPair isTable) below (by simpa using changed)
        (by simpa using frame)
      rw [replaceAt, isTable]
      exact h.setTable noPair inner frame.first
    | element i =>
      rw [nodeAt] at found
      obtain ⟨child, isElement, below⟩ := Option.bind_eq_some_iff.mp found
      have inner := ih (wf.member _ (List.mem_of_getElem? isElement)) (h.element isElement) below
        (by simpa using changed) (by simpa using frame)
      rw [replaceAt, isElement]
      exact h.setElement (List.getElem?_eq_some_iff.mp isElement).1 inner frame.first

theorem replaceAt_wellFormed (wf : node.WellFormed) {n : TableNode}
    (found : node.nodeAt P = some n) (wfNew : new.WellFormed) (same : new.array = n.array) :
    (node.replaceAt P new).WellFormed ∧ (node.replaceAt P new).array = node.array := by
  induction P generalizing node with
  | nil =>
    obtain rfl := Option.some.inj found
    exact ⟨wfNew, same⟩
  | cons s P ih =>
    cases s with
    | key k =>
      rw [nodeAt] at found
      obtain ⟨child, isTable, below⟩ := Option.bind_eq_some_iff.mp found
      have plain : node.array = false := by
        by_contra isArray
        have empty := (wf.sound.isArray (by simpa using isArray)).2.1
        rw [empty] at isTable
        cases isTable
      rw [replaceAt, isTable]
      exact ⟨wf.setTable (wf.noPair isTable) plain (ih (wf.child isTable) below).1, rfl⟩
    | element i =>
      rw [nodeAt] at found
      obtain ⟨child, isElement, below⟩ := Option.bind_eq_some_iff.mp found
      have mem := List.mem_of_getElem? isElement
      obtain ⟨inner, flag⟩ := ih (wf.member _ mem) below
      have isArray : node.array = true := by
        by_contra plain
        rw [wf.sound.isTable (by simpa using plain)] at mem
        cases mem
      rw [replaceAt, isElement]
      refine ⟨wf.setElements isArray ?_ ?_, rfl⟩
      · intro empty
        rw [List.set_eq_nil_iff] at empty
        rw [empty] at mem
        cases mem
      · intro e he
        rcases List.mem_or_eq_of_mem_set he with he | rfl
        · exact ⟨wf.member e he, wf.sound.members e he⟩
        · exact ⟨inner, flag.trans (wf.sound.members child mem)⟩

end Paths

end TableNode

/-! ## Documents -/

namespace Layout

/-- A statement, for a table that is open. -/
def define (L : Layout) (current : Path) (s : Statement) : Option (Layout × Path) :=
  match s with
  | .pair keyPath val =>
    (L.addPair current keyPath.first keyPath.rest val).map (fun M => (M, current))
  | .header keyPath array => L.openTable [] keyPath.first keyPath.rest array

/-- The view of a document with nothing in it. -/
def start : Layout := fun P => if P = [] then some (.table false false) else none

end Layout

namespace Document

/-- A document and its view: the table that is open is one. -/
structure Shows (d : Document) (L : Layout) : Prop where
  wellFormed : d.root.WellFormed
  plain : d.root.array = false
  shown : d.root.ShownBy L []
  opened : ∃ named dotted, L d.current = some (.table named dotted)

theorem Shows.start : start.Shows Layout.start := by
  refine ⟨TableNode.WellFormed.fresh false, rfl, ?_, ⟨false, false, rfl⟩⟩
  intro P
  cases P with
  | nil => rfl
  | cons s P => cases s <;> rfl

/-- What a failed or a successful statement leaves has sound nodes only. -/
theorem define_wellFormed {d : Document} {L : Layout} (h : d.Shows L) (s : Statement)
    (pos : Position) : (d.define s pos).1.root.WellFormed := by
  cases s with
  | pair keyPath val =>
    obtain ⟨named, dotted, opened⟩ := h.opened
    rw [← List.nil_append d.current, h.shown] at opened
    obtain ⟨n, found, wf, plain, -⟩ := TableNode.nodeAt_of_view h.wellFormed h.shown opened
    simp only [define, found, Option.getD_some]
    have added := TableNode.addPairParts_wellFormed wf plain keyPath.first keyPath.rest val pos
    exact (TableNode.replaceAt_wellFormed h.wellFormed found added.1 (added.2.trans plain.symm)).1
  | header keyPath array =>
    have wf := TableNode.openTableParts_wellFormed h.wellFormed h.plain keyPath.first keyPath.rest
      array pos
    simp only [define, TableNode.openTable]
    split
    · rename_i root e failed
      rw [failed] at wf
      exact wf.1
    · rename_i root opened ok
      rw [ok] at wf
      exact wf.1

theorem define_pair {d : Document} {L : Layout} (h : d.Shows L) (keyPath : KeyPath) (val : Value)
    (pos : Position) :
    match L.addPair d.current keyPath.first keyPath.rest val with
    | none => ∃ e, (d.define (.pair keyPath val) pos).2 = .error e
    | some M => (d.define (.pair keyPath val) pos).2 = .ok () ∧
        (d.define (.pair keyPath val) pos).1.current = d.current ∧
        (d.define (.pair keyPath val) pos).1.root.ShownBy M [] ∧
        (d.define (.pair keyPath val) pos).1.root.array = false := by
  obtain ⟨named, dotted, opened⟩ := h.opened
  rw [← List.nil_append d.current, h.shown] at opened
  obtain ⟨n, found, wf, plain, shown⟩ := TableNode.nodeAt_of_view h.wellFormed h.shown opened
  have added := TableNode.addPairParts_added wf shown keyPath.first keyPath.rest val pos
  have kept := TableNode.addPairParts_wellFormed wf plain keyPath.first keyPath.rest val pos
  simp only [define, found, Option.getD_some, TableNode.addPair]
  rw [List.nil_append] at added
  split
  · rename_i refused
    rw [refused] at added
    exact added
  · rename_i M accepted
    rw [accepted] at added
    obtain ⟨ok, shown', frame⟩ := added
    exact ⟨ok, trivial, TableNode.replaceAt_shown h.wellFormed h.shown found (by simpa using shown')
      (by simpa using frame),
      (TableNode.replaceAt_wellFormed h.wellFormed found kept.1
        (kept.2.trans plain.symm)).2.trans h.plain⟩

end Document

namespace Layout

variable {L M : Layout} {B : Path} {key : Text} {rest : List Text}

/-- What is a table stays one while pairs are added. -/
theorem addPair_keeps {val : Value} (h : L.addPair B key rest val = some M) {P : Path}
    {place : Place}
    (before : L P = some place) : M P = some place := by
  induction rest generalizing L B key with
  | nil =>
    rw [addPair] at h
    split at h
    · rename_i absent
      rw [← Option.some.inj h, put_ne (by rintro rfl; rw [before] at absent; cases absent), before]
    · cases h
  | cons next rest ih =>
    rw [addPair] at h
    split at h
    · rename_i absent
      refine ih h ?_
      rw [put_ne (by rintro rfl; rw [before] at absent; cases absent), before]
    · exact ih h before
    · cases h

/-- The table a header opens is one. -/
theorem openTable_opened {array : Bool} {table : Path}
    (h : L.openTable B key rest array = some (M, table)) :
    ∃ named dotted, M table = some (.table named dotted) := by
  induction rest generalizing L B key with
  | nil =>
    rw [openTable] at h
    unfold nameTable at h
    split at h
    all_goals first
      | obtain ⟨rfl, rfl⟩ := Prod.mk.inj (Option.some.inj h)
        exact ⟨_, _, put_self _ _ _⟩
      | cases h
  | cons next rest ih =>
    rw [openTable] at h
    split at h
    · exact ih h
    · cases h
    · exact ih h
    · exact ih h

end Layout

/-- The document does what its view does, and shows what the view becomes. -/
theorem Document.define_follows {d : Document} {L : Layout} (h : d.Shows L) (s : Statement)
    (pos : Position) :
    match L.define d.current s with
    | none => ∃ e, (d.define s pos).2 = .error e
    | some (M, table) => (d.define s pos).2 = .ok () ∧ (d.define s pos).1.Shows M ∧
        (d.define s pos).1.current = table := by
  have wf := define_wellFormed h s pos
  cases s with
  | pair keyPath val =>
    have added := define_pair h keyPath val pos
    rw [Layout.define]
    cases o : L.addPair d.current keyPath.first keyPath.rest val with
    | none =>
      rw [o] at added
      exact added
    | some M =>
      rw [o] at added
      obtain ⟨ok, current, shown, plain⟩ := added
      obtain ⟨named, dotted, opened⟩ := h.opened
      exact ⟨ok, ⟨wf, plain, shown, named, dotted, current ▸ Layout.addPair_keeps o opened⟩, current⟩
  | header keyPath array =>
    have opened := TableNode.openTableParts_opened h.wellFormed h.shown keyPath.first keyPath.rest
      array pos
    have kept := TableNode.openTableParts_wellFormed h.wellFormed h.plain keyPath.first
      keyPath.rest array pos
    rw [Layout.define]
    cases o : L.openTable [] keyPath.first keyPath.rest array with
    | none =>
      rw [o] at opened
      obtain ⟨e, failed⟩ := opened
      refine ⟨e, ?_⟩
      simp only [define, TableNode.openTable]
      generalize d.root.openTableParts keyPath.first keyPath.rest array pos = r at failed
      obtain ⟨root, result⟩ := r
      obtain rfl : result = .error e := failed
      rfl
    | some r =>
      obtain ⟨M, table⟩ := r
      have isTable := Layout.openTable_opened o
      rw [o] at opened
      obtain ⟨P, ok, rfl, shown, -⟩ := opened
      simp only [define, TableNode.openTable]
      generalize d.root.openTableParts keyPath.first keyPath.rest array pos = r at ok shown kept
      obtain ⟨root, result⟩ := r
      obtain rfl : result = .ok table := ok
      exact ⟨rfl, ⟨kept.1, kept.2, shown, isTable⟩, rfl⟩

end Dross
